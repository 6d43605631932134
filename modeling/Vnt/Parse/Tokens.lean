import Vnt.Parse.Lexer

/-!
# `Parse.Tokens` — the lexer stays inside its buffer

As long as the index stands at the terminator or before it, `lexer_next` reads nothing behind the terminator,
moves forward and returns (`lexerNext_sat`). It leaves the index inside, except after the end-of-file token, which
steps over the terminator: a further call would read behind it. The tokens a lexer still has to give are therefore
a finite list (`Lexer.tokens`), whose last one is the end of file.
-/

namespace Vnt.Parse

open Lib Prog

namespace Lexer

/-- The index stands on a character or on the terminator. -/
def InBounds (lx : Lexer) : Prop := lx.current ≤ lx.source.chars.length

/-- The index has moved over the terminator. -/
def Finished (lx : Lexer) : Prop := lx.current = lx.source.chars.length + 1

/-- `lx'` is `lx` moved forward inside the buffer. -/
structure Moves (lx lx' : Lexer) : Prop where
  source : lx'.source = lx.source
  le : lx.current ≤ lx'.current
  inBounds : lx'.InBounds

namespace Moves

variable {lx lx₁ lx₂ : Lexer}

theorem refl (h : lx.InBounds) : Moves lx lx := ⟨rfl, Nat.le_refl _, h⟩

theorem trans (h₁ : Moves lx lx₁) (h₂ : Moves lx₁ lx₂) : Moves lx lx₂ :=
  ⟨h₂.source.trans h₁.source, Nat.le_trans h₁.le h₂.le, h₂.inBounds⟩

/-- What is left to read, the terminator included. -/
theorem room (h : Moves lx lx₁) {n : Nat} (hn : lx.source.chars.length < n + lx.current) :
    lx₁.source.chars.length < n + lx₁.current := by
  have hle := h.le
  rw [h.source]
  omega

end Moves

theorem read_eq_nul {lx : Lexer} {i : Nat} (h : lx.read i = .ok nul) : lx.source.chars.length ≤ i := by
  by_contra hlt
  rw [Lexer.read, List.getElem?_eq_getElem (by omega)] at h
  exact lx.source.noNul (Except.ok.inj h ▸ List.getElem_mem _)

theorem read_ok {lx : Lexer} {i : Nat} (h : i ≤ lx.source.chars.length) : ∃ c, lx.read i = .ok c := by
  unfold Lexer.read
  rcases Nat.lt_or_eq_of_le h with hlt | rfl
  · exact ⟨_, by rw [List.getElem?_eq_getElem hlt]⟩
  · exact ⟨nul, by simp⟩

theorem read_ne_nul {lx : Lexer} {i : Nat} {c : Char} (h : lx.read i = .ok c) (hc : c ≠ nul) :
    i < lx.source.chars.length := by
  by_contra hge
  rw [Lexer.read, List.getElem?_eq_none (by omega)] at h
  dsimp only at h
  split at h
  · exact hc (Except.ok.inj h).symm
  · exact absurd h (by simp)

@[simp] theorem step_source (lx : Lexer) (c : Char) : (lx.step c).source = lx.source := by
  unfold Lexer.step
  split_ifs <;> rfl

@[simp] theorem step_current (lx : Lexer) (c : Char) : (lx.step c).current = lx.current + 1 := by
  unfold Lexer.step
  split_ifs <;> rfl

end Lexer

open Lexer

/-! ## The primitives -/

theorem peek_sat {lx : Lexer} (h : lx.InBounds) :
    Sat peek lx fun c lx' => lx' = lx ∧ lx.read lx.current = .ok c := by
  obtain ⟨c, hc⟩ := read_ok h
  exact ⟨c, lx, by simp [peek, hc, Except.map], rfl, hc⟩

theorem peekNext_sat {lx : Lexer} (h : lx.current < lx.source.chars.length) :
    Sat peekNext lx fun _ lx' => lx' = lx := by
  obtain ⟨c, hc⟩ := @read_ok lx (lx.current + 1) h
  exact ⟨c, lx, by simp [peekNext, hc, Except.map], rfl⟩

theorem advance_sat {lx : Lexer} {c : Char} (h : lx.read lx.current = .ok c) :
    Sat advance lx fun c' lx' => c' = c ∧ lx' = lx.step c :=
  ⟨c, lx.step c, by simp [advance, h, Except.map], rfl, rfl⟩

/-- A character other than the terminator is passed. -/
theorem step_moves {lx : Lexer} {c : Char} (h : lx.read lx.current = .ok c) (hc : c ≠ nul) :
    Moves lx (lx.step c) ∧ (lx.step c).current = lx.current + 1 := by
  have hlt := read_ne_nul h hc
  refine ⟨⟨step_source lx c, ?_, ?_⟩, step_current lx c⟩
  · rw [step_current]
    exact Nat.le_succ _
  · show (lx.step c).current ≤ (lx.step c).source.chars.length
    rw [step_current, step_source]
    exact hlt

theorem makeToken_sat (type : TokenType) (start : Nat) (lx : Lexer) :
    Sat (makeToken type start) lx fun t lx' => lx' = lx ∧ t.type = type := ⟨_, lx, rfl, rfl, rfl⟩

/-! ## The loops -/

theorem advanceWhile_sat {test : Char → Bool} (htest : test nul = false) {n : Nat} {lx : Lexer} (h : lx.InBounds)
    (hn : lx.source.chars.length < n + lx.current) : Sat (advanceWhile test n) lx fun _ lx' => Moves lx lx' := by
  induction n generalizing lx with
  | zero => exact absurd hn (Nat.not_lt.mpr (by rw [Nat.zero_add]; exact h))
  | succ n ih =>
      rw [advanceWhile]
      refine (peek_sat h).seq ?_
      rintro c lx' ⟨rfl, hc⟩
      refine Sat.ite (fun ht => ?_) fun _ => Sat.pure (Moves.refl h)
      have hnul : c ≠ nul := by
        rintro rfl
        rw [htest] at ht
        exact absurd ht (by simp)
      obtain ⟨hmoves, hcur⟩ := step_moves hc hnul
      refine (advance_sat hc).seq ?_
      rintro _ _ ⟨rfl, rfl⟩
      refine (ih hmoves.inBounds ?_).mono fun _ _ hm => hmoves.trans hm
      rw [hmoves.source, hcur]
      omega

theorem skipWhitespace_sat {n : Nat} {lx : Lexer} (h : lx.InBounds)
    (hn : lx.source.chars.length < n + lx.current) : Sat (skipWhitespace n) lx fun _ lx' => Moves lx lx' := by
  induction n generalizing lx with
  | zero => exact absurd hn (Nat.not_lt.mpr (by rw [Nat.zero_add]; exact h))
  | succ n ih =>
      rw [skipWhitespace]
      refine (peek_sat h).seq ?_
      rintro c lx' ⟨rfl, hc⟩
      refine Sat.ite (fun hspace => ?_) fun _ => Sat.ite (fun hhash => ?_) fun _ => Sat.pure (Moves.refl h)
      · have hnul : c ≠ nul := by
          rintro rfl
          exact absurd hspace (by decide)
        obtain ⟨hmoves, hcur⟩ := step_moves hc hnul
        refine (advance_sat hc).seq ?_
        rintro _ _ ⟨rfl, rfl⟩
        refine (ih hmoves.inBounds ?_).mono fun _ _ hm => hmoves.trans hm
        rw [hmoves.source, hcur]
        omega
      · -- the first round of the comment loop passes the `#`
        subst hhash
        obtain ⟨hmoves, hcur⟩ := step_moves hc (by decide)
        have hroom : (lx'.step '#').source.chars.length < n + (lx'.step '#').current := by
          rw [hmoves.source, hcur]
          omega
        have hcomment : Sat (advanceWhile (fun c => c ≠ nul && c ≠ '\n') (n + 1)) lx' fun _ lx₁ =>
            Moves (lx'.step '#') lx₁ := by
          rw [advanceWhile]
          refine (peek_sat h).seq ?_
          rintro c' _ ⟨rfl, hc'⟩
          obtain rfl := Except.ok.inj (hc.symm.trans hc')
          refine Sat.ite (fun _ => ?_) fun hne => absurd (by decide) hne
          refine (advance_sat hc').seq ?_
          rintro _ _ ⟨rfl, rfl⟩
          exact advanceWhile_sat (by decide) hmoves.inBounds hroom
        refine hcomment.seq fun _ lx₁ hm => ?_
        exact (ih hm.inBounds (hm.room hroom)).mono fun _ _ hm' => hmoves.trans (hm.trans hm')

theorem stringBody_sat {n : Nat} {lx : Lexer} (h : lx.InBounds)
    (hn : lx.source.chars.length < n + lx.current) : Sat (stringBody n) lx fun _ lx' => Moves lx lx' := by
  induction n generalizing lx with
  | zero => exact absurd hn (Nat.not_lt.mpr (by rw [Nat.zero_add]; exact h))
  | succ n ih =>
      rw [stringBody]
      refine (peek_sat h).seq ?_
      rintro c lx' ⟨rfl, hc⟩
      refine Sat.ite (fun hbody => ?_) fun _ => Sat.pure (Moves.refl h)
      have hnul : c ≠ nul := by
        simp only [Bool.and_eq_true, decide_eq_true_eq] at hbody
        exact hbody.2
      obtain ⟨hmoves, hcur⟩ := step_moves hc hnul
      have hroom : (lx'.step c).source.chars.length < n + (lx'.step c).current := by
        rw [hmoves.source, hcur]
        omega
      refine Sat.ite (fun _ => ?_) fun _ => ?_
      · refine (advance_sat hc).seq ?_
        rintro _ _ ⟨rfl, rfl⟩
        refine (peek_sat hmoves.inBounds).seq ?_
        rintro e _ ⟨rfl, he⟩
        refine Sat.ite (fun _ => Sat.pure hmoves) fun hne => ?_
        obtain ⟨hmoves', -⟩ := step_moves he hne
        refine (advance_sat he).seq ?_
        rintro _ _ ⟨rfl, rfl⟩
        exact (ih hmoves'.inBounds (hmoves'.room hroom)).mono fun _ _ hm => hmoves.trans (hmoves'.trans hm)
      · refine (advance_sat hc).seq ?_
        rintro _ _ ⟨rfl, rfl⟩
        exact (ih hmoves.inBounds hroom).mono fun _ _ hm => hmoves.trans hm

/-! ## Tokens -/

/-- A token other than the end of file, after a move inside the buffer. -/
def Scanned (lx : Lexer) (t : Token) (lx' : Lexer) : Prop := Moves lx lx' ∧ t.type ≠ .eof

theorem makeToken_scanned {type : TokenType} (htype : type ≠ .eof) {lx lx₁ : Lexer} (h : Moves lx lx₁) (start : Nat) :
    Sat (makeToken type start) lx₁ (Scanned lx) := by
  refine (makeToken_sat type start lx₁).mono ?_
  rintro t _ ⟨rfl, rfl⟩
  exact ⟨h, htype⟩

theorem identifier_sat {n start : Nat} {lx : Lexer} (h : lx.InBounds)
    (hn : lx.source.chars.length < n + lx.current) : Sat (identifier n start) lx (Scanned lx) := by
  refine (advanceWhile_sat (by decide) h hn).seq fun _ lx₁ hm => ?_
  exact makeToken_scanned (by decide) hm start

/-- The point of a fraction is no terminator, so the character after it can be read. -/
theorem fractionFollows_sat {lx : Lexer} (h : lx.InBounds) : Sat fractionFollows lx fun b lx' =>
    lx' = lx ∧ (b = true → lx.read lx.current = .ok '.') := by
  refine (peek_sat h).seq ?_
  rintro d lx' ⟨rfl, hd⟩
  refine Sat.ite (fun hdot => ?_) fun _ => Sat.pure ⟨rfl, by simp⟩
  subst hdot
  refine (peekNext_sat (read_ne_nul hd (by decide))).seq ?_
  rintro e lx' rfl
  exact Sat.pure ⟨rfl, fun _ => hd⟩

theorem number_sat {n start : Nat} {first : Char} {lx : Lexer} (h : lx.InBounds)
    (hn : lx.source.chars.length < n + lx.current) : Sat (number n first start) lx (Scanned lx) := by
  refine (peek_sat h).seq ?_
  rintro c _ ⟨rfl, hc⟩
  refine Sat.ite (fun hhex => ?_) fun _ => ?_
  · have hnul : c ≠ nul := by
      rintro rfl
      revert hhex
      simp [nul]
    obtain ⟨hmoves, -⟩ := step_moves hc hnul
    refine (advance_sat hc).seq ?_
    rintro _ _ ⟨rfl, rfl⟩
    refine (advanceWhile_sat (by decide) hmoves.inBounds (hmoves.room hn)).seq fun _ lx₁ hm => ?_
    exact makeToken_scanned (by decide) (hmoves.trans hm) start
  · refine (advanceWhile_sat (by decide) h hn).seq fun _ lx₁ hm => ?_
    refine (fractionFollows_sat hm.inBounds).seq ?_
    rintro b lx₁ ⟨rfl, hb⟩
    refine Sat.ite (fun hfloat => ?_) fun _ => makeToken_scanned (by decide) hm start
    obtain ⟨hmoves, -⟩ := step_moves (hb hfloat) (by decide)
    refine (advance_sat (hb hfloat)).seq ?_
    rintro _ _ ⟨rfl, rfl⟩
    refine (advanceWhile_sat (by decide) hmoves.inBounds (hmoves.room (hm.room hn))).seq fun _ lx₂ hm₂ => ?_
    exact makeToken_scanned (by decide) (hm.trans (hmoves.trans hm₂)) start

theorem string_sat {n start : Nat} {lx : Lexer} (h : lx.InBounds)
    (hn : lx.source.chars.length < n + lx.current) : Sat (string n start) lx (Scanned lx) := by
  refine (stringBody_sat h hn).seq fun _ lx₁ hm => ?_
  refine (peek_sat hm.inBounds).seq ?_
  rintro c _ ⟨rfl, hc⟩
  refine Sat.ite (fun _ => makeToken_scanned (by decide) hm start) fun hne => ?_
  obtain ⟨hmoves, -⟩ := step_moves hc hne
  refine (advance_sat hc).seq ?_
  rintro _ _ ⟨rfl, rfl⟩
  refine (makeToken_sat .string start _).seq ?_
  rintro t _ ⟨rfl, ht⟩
  exact Sat.pure ⟨hm.trans hmoves, by rw [ht]; decide⟩

theorem pairToken_sat {second : Char} {pair single : TokenType} (hsecond : second ≠ nul) (hpair : pair ≠ .eof)
    (hsingle : single ≠ .eof) {lx : Lexer} (h : lx.InBounds) (start : Nat) :
    Sat (pairToken second pair single start) lx (Scanned lx) := by
  refine (peek_sat h).seq ?_
  rintro c _ ⟨rfl, hc⟩
  refine Sat.ite (fun heq => ?_) fun _ => makeToken_scanned hsingle (Moves.refl h) start
  obtain ⟨hmoves, -⟩ := step_moves hc (heq ▸ hsecond)
  refine (advance_sat hc).seq ?_
  rintro _ _ ⟨rfl, rfl⟩
  exact makeToken_scanned hpair hmoves start

theorem symbol_sat (c : Char) {lx : Lexer} (h : lx.InBounds) (start : Nat) :
    Sat (symbol c start) lx (Scanned lx) := by
  unfold symbol
  split
  all_goals first
    | exact makeToken_scanned (by decide) (Moves.refl h) start
    | exact pairToken_sat (by decide) (by decide) (by decide) h start

/-- What a token leaves: the end of file takes the index over the terminator; any other token leaves it inside, at
    least one character further. -/
def Read (lx : Lexer) (t : Token) (lx' : Lexer) : Prop :=
  lx'.source = lx.source ∧
    ((t.type = .eof ∧ lx'.Finished) ∨ (t.type ≠ .eof ∧ lx'.InBounds ∧ lx.current < lx'.current))

theorem scanToken_sat {n start : Nat} {lx : Lexer} (h : lx.InBounds) (hn : lx.source.chars.length < n + lx.current) :
    Sat (scanToken n start) lx (Read lx) := by
  obtain ⟨c, hc⟩ := read_ok h
  refine (advance_sat hc).seq ?_
  rintro c _ ⟨rfl, rfl⟩
  refine Sat.ite (fun hnul => ?_) fun hnul => ?_
  · refine (makeToken_sat .eof start _).mono ?_
    rintro t _ ⟨rfl, ht⟩
    subst hnul
    have hge := read_eq_nul hc
    refine ⟨step_source lx nul, .inl ⟨ht, ?_⟩⟩
    show (lx.step nul).current = (lx.step nul).source.chars.length + 1
    rw [step_current, step_source]
    exact congrArg (· + 1) (Nat.le_antisymm h hge)
  · obtain ⟨hmoves, hcur⟩ := step_moves hc hnul
    have hroom := hmoves.room hn
    have hdone : ∀ t lx', Scanned (lx.step c) t lx' → Read lx t lx' := by
      rintro t lx' ⟨hm, ht⟩
      have hle := hm.le
      exact ⟨(hmoves.trans hm).source, .inr ⟨ht, hm.inBounds, by omega⟩⟩
    refine Sat.ite (fun _ => (identifier_sat hmoves.inBounds hroom).mono hdone) fun _ => ?_
    refine Sat.ite (fun _ => (number_sat hmoves.inBounds hroom).mono hdone) fun _ => ?_
    refine Sat.ite (fun _ => (string_sat hmoves.inBounds hroom).mono hdone) fun _ => ?_
    exact (symbol_sat _ hmoves.inBounds _).mono hdone

/-- **One token.** Inside the buffer `lexer_next` returns and reads nothing behind the terminator. -/
theorem lexerNext_sat {lx : Lexer} (h : lx.InBounds) : Sat lexerNext lx (Read lx) := by
  have hn : lx.source.chars.length < lx.source.chars.length + 2 + lx.current := by omega
  refine (skipWhitespace_sat h hn).seq fun _ lx₁ hm => ?_
  have hmark : Moves lx lx₁.markStart := ⟨hm.source, hm.le, hm.inBounds⟩
  show Sat (scanToken _ _) lx₁.markStart _
  refine (scanToken_sat hmark.inBounds (hmark.room hn)).mono ?_
  rintro t lx' ⟨hsource, hread⟩
  refine ⟨hsource.trans hmark.source, hread.imp id fun ⟨ht, hin, hlt⟩ => ⟨ht, hin, ?_⟩⟩
  exact Nat.lt_of_le_of_lt hmark.le hlt

/-! ## The stream of tokens -/

/-- The next `n` tokens, or fewer when the end of file comes first. -/
def tokensFrom : Nat → Lexer → List Token
  | 0, _ => []
  | n + 1, lx =>
      match lexerNext lx with
      | .ok (t, lx') => if t.type = .eof then [t] else t :: tokensFrom n lx'
      | .error _ => []

/-- The tokens a lexer still has to give. -/
def Lexer.tokens (lx : Lexer) : List Token := tokensFrom (lx.source.chars.length + 1 - lx.current) lx

/-- Fuel for every character and the terminator is enough. -/
theorem tokensFrom_fuel {n m : Nat} {lx : Lexer} (h : lx.InBounds) (hn : lx.source.chars.length < n + lx.current)
    (hm : lx.source.chars.length < m + lx.current) : tokensFrom n lx = tokensFrom m lx := by
  induction n generalizing m lx with
  | zero => exact absurd hn (Nat.not_lt.mpr (by rw [Nat.zero_add]; exact h))
  | succ n ih =>
      obtain ⟨m, rfl⟩ : ∃ k, m = k + 1 := by
        refine ⟨m - 1, ?_⟩
        unfold InBounds at h
        omega
      obtain ⟨t, lx', hnext, hsource, hread⟩ := lexerNext_sat h
      rw [tokensFrom, tokensFrom, hnext]
      rcases hread with ⟨ht, -⟩ | ⟨ht, hin, hlt⟩
      · simp [ht]
      · have hrest : tokensFrom n lx' = tokensFrom m lx' := ih hin (by rw [hsource]; omega) (by rw [hsource]; omega)
        simp [ht, hrest]

theorem Lexer.tokens_finished {lx : Lexer} (h : lx.Finished) : lx.tokens = [] := by
  unfold Lexer.tokens
  rw [h, Nat.sub_self]
  rfl

/-- The next token is the first of the stream. -/
theorem lexerNext_tokens {lx : Lexer} (h : lx.InBounds) : ∃ t lx', lexerNext lx = .ok (t, lx') ∧ Read lx t lx' ∧
    lx.tokens = t :: lx'.tokens := by
  obtain ⟨t, lx', hnext, hread⟩ := lexerNext_sat h
  refine ⟨t, lx', hnext, hread, ?_⟩
  have hfuel : lx.tokens = tokensFrom (lx.source.chars.length + 1) lx := by
    apply tokensFrom_fuel h <;> unfold InBounds at h <;> omega
  rw [hfuel, tokensFrom, hnext]
  obtain ⟨hsource, ⟨ht, hfin⟩ | ⟨ht, hin, hlt⟩⟩ := hread
  · simp [ht, Lexer.tokens_finished hfin]
  · have hrest : tokensFrom lx.source.chars.length lx' = lx'.tokens := by
      apply tokensFrom_fuel hin
      · rw [hsource]
        omega
      · unfold InBounds at hin
        omega
    simp [ht, hrest]

theorem tokensFrom_length (n : Nat) (lx : Lexer) : (tokensFrom n lx).length ≤ n := by
  induction n generalizing lx with
  | zero => exact Nat.le_refl 0
  | succ n ih =>
      rw [tokensFrom]
      split
      · split
        · simp
        · simpa using ih _
      · simp

end Vnt.Parse
