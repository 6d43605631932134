import Mathlib.Data.List.Forall2
import Vnt.Vnx.Parser

/-!
# `Vnx.Grammar` — what the parser of VNX accepts

The tokens are cut at the ends of lines; a line is empty or has one of eight forms. The parser accepts more than that: behind
`when` it takes any word where the keyword `jump` belongs (`Form` is stated for a condition on that word). Apart from this
`parse` accepts exactly the lines of the grammar, and makes one node of each.
-/

namespace Vnt.Vnx

open Lib (Prog)
open Lib.Prog (Keeps Steady Quiet quiet_pure quiet_get quiet_bind quiet_while)
open Net (Bytes ascii)
open StdLib (Hosted)

/-- `word` begins a statement. -/
def Token.IsWord (t : Token) (word : String) : Prop := t.kind = .id ∧ t.text = ascii word

/-- A line that is a statement, and its node. -/
inductive Form (keyword : Bytes → Prop) : List Token → Node → Prop
  | say {kw v : Token} (hkw : kw.IsWord "say") (hv : v.kind = .str) :
      Form keyword [kw, v] ⟨.say, kw.line, v.text, [], []⟩
  | sayVar {kw v : Token} (hkw : kw.IsWord "say") (hv : v.kind = .id) :
      Form keyword [kw, v] ⟨.sayVar, kw.line, v.text, [], []⟩
  | set {kw name value : Token} (hkw : kw.IsWord "set") (hname : name.kind = .id) (hvalue : value.kind = .str) :
      Form keyword [kw, name, value] ⟨.set, kw.line, name.text, value.text, []⟩
  | input {kw name prompt : Token} (hkw : kw.IsWord "input") (hname : name.kind = .id) (hprompt : prompt.kind = .str) :
      Form keyword [kw, name, prompt] ⟨.input, kw.line, name.text, prompt.text, []⟩
  | label {kw name : Token} (hkw : kw.IsWord "label") (hname : name.kind = .id) :
      Form keyword [kw, name] ⟨.label, kw.line, name.text, [], []⟩
  | jump {kw name : Token} (hkw : kw.IsWord "jump") (hname : name.kind = .id) :
      Form keyword [kw, name] ⟨.jump, kw.line, name.text, [], []⟩
  | when {kw name eq value word dest : Token} (hkw : kw.IsWord "when") (hname : name.kind = .id) (heq : eq.kind = .eq)
      (hvalue : value.kind = .str) (hword : word.kind = .id) (hjump : keyword word.text) (hdest : dest.kind = .id) :
      Form keyword [kw, name, eq, value, word, dest] ⟨.when, kw.line, name.text, value.text, dest.text⟩
  | «end» {kw : Token} (hkw : kw.IsWord "end") : Form keyword [kw] ⟨.end, kw.line, [], [], []⟩

def Token.endsLine (t : Token) : Bool := t.kind = .nl

/-- The lines between the ends of lines; the end of the file is no part of them. -/
def lines (tokens : List Token) : List (List Token) := tokens.dropLast.splitOnP Token.endsLine

/-- The lines with something on them, each a statement, and their nodes in order. -/
def ReadAs (keyword : Bytes → Prop) (ls : List (List Token)) (nodes : List Node) : Prop :=
  List.Forall₂ (Form keyword) (ls.filter fun l => l ≠ []) nodes

variable {p q : Parser} {t kw : Token} {n : Node} {kind : TokenKind} {what : String} {α : Type}

/-! ## The flag -/

def flag (p : Parser) : Bool := p.failed

theorem steady_take : Steady flag take := by
  refine .bind .get fun old => .bind (.modify ?_) fun _ => .pure _
  intro p hup
  unfold Parser.advance
  split <;> exact hup

theorem steady_report (message : Bytes) : Steady flag (report message) := .modify fun _ _ => rfl

theorem steady_expect (kind : TokenKind) (what : String) : Steady flag (expect kind what) :=
  .bind .get fun _ => .ite steady_take (.bind (steady_report _) fun _ => .pure _)

theorem steady_statement (kw : Token) : Steady flag (statement kw) := by
  unfold statement
  refine .ite ?_ (.ite ?_ (.ite ?_ (.ite ?_ (.ite ?_ (.ite ?_ (.ite ?_ ?_))))))
  · exact .bind .get fun _ => .ite (.bind steady_take fun _ => .pure _) (.bind (steady_expect _ _) fun _ => .pure _)
  · exact .bind (steady_expect _ _) fun _ => .bind (steady_expect _ _) fun _ => .pure _
  · exact .bind (steady_expect _ _) fun _ => .bind (steady_expect _ _) fun _ => .pure _
  · exact .bind (steady_expect _ _) fun _ => .pure _
  · exact .bind (steady_expect _ _) fun _ => .pure _
  · exact .bind (steady_expect _ _) fun _ => .bind (steady_expect _ _) fun _ => .bind (steady_expect _ _) fun _ =>
      .bind (steady_expect _ _) fun _ => .bind (steady_expect _ _) fun _ => .pure _
  · exact .pure _
  · exact .bind (steady_report _) fun _ => .pure _

theorem steady_skipLines : Steady flag skipLines := .modify fun _ hup => hup

theorem steady_addQuietly (n : Node) : Steady flag (addQuietly n) :=
  .bind .get fun _ => .ite (.pure _) (.modify fun _ hup => hup)

theorem steady_endLine : Steady flag endLine :=
  .bind .get fun _ => .ite steady_skipLines (.ite (steady_report _) (.pure _))

theorem steady_parseLine : Steady flag parseLine :=
  .bind (steady_expect _ _) fun kw => .bind (steady_statement kw) fun n => .bind (steady_addQuietly n) fun _ => steady_endLine

/-! ## Tokens taken -/

/-- `p` with other tokens in front. -/
def Parser.at (p : Parser) (current : List Token) : Parser := { p with current := current }

theorem quiet_take : Quiet flag take p t q ↔ t = p.front ∧ q = p.advance ∧ p.failed = false := by
  constructor
  · rintro ⟨hrun, hdown⟩
    cases hrun
    refine ⟨rfl, rfl, ?_⟩
    unfold flag Parser.advance at hdown
    split at hdown <;> exact hdown
  · rintro ⟨rfl, rfl, hdown⟩
    refine ⟨rfl, ?_⟩
    unfold flag Parser.advance
    split <;> exact hdown

/-- What was expected stood in front and has been taken. -/
theorem quiet_expect (heof : kind ≠ .eof) (hend : kind ≠ .endMark) : Quiet flag (expect kind what) p t q ↔
    p.failed = false ∧ t.kind = kind ∧ ∃ more, p.current = t :: more ∧ q = p.at more := by
  unfold expect
  rw [quiet_get]
  by_cases hfront : p.front.kind = kind
  · rw [if_pos hfront, quiet_take]
    have hadvance : p.advance = p.at p.current.tail := if_pos (by rw [hfront]; exact heof)
    rw [hadvance]
    constructor
    · rintro ⟨rfl, rfl, hdown⟩
      refine ⟨hdown, hfront, p.current.tail, ?_, rfl⟩
      cases hcurrent : p.current with
      | nil =>
          rw [Parser.front, hcurrent] at hfront
          exact absurd hfront.symm hend
      | cons first more =>
          rw [Parser.front, hcurrent]
          rfl
    · rintro ⟨hdown, -, more, hcurrent, rfl⟩
      rw [Parser.front, hcurrent]
      exact ⟨rfl, rfl, hdown⟩
  · rw [if_neg hfront]
    constructor
    · rintro ⟨hrun, hdown⟩
      cases hrun
      cases hdown
    · rintro ⟨-, hkind, more, hcurrent, -⟩
      rw [Parser.front, hcurrent] at hfront
      exact absurd hkind hfront

/-- A statement that begins with something expected. -/
theorem quiet_expect_bind {f : Token → Parsing α} {a : α} (heof : kind ≠ .eof) (hend : kind ≠ .endMark)
    (hf : ∀ t, Steady flag (f t)) : Quiet flag (expect kind what >>= f) p a q ↔
      p.failed = false ∧ ∃ t more, t.kind = kind ∧ p.current = t :: more ∧ Quiet flag (f t) (p.at more) a q := by
  rw [quiet_bind fun t => (hf t).keeps]
  constructor
  · rintro ⟨t, _, hexpect, hrest⟩
    obtain ⟨hdown, hkind, more, hcurrent, rfl⟩ := (quiet_expect heof hend).mp hexpect
    exact ⟨hdown, t, more, hkind, hcurrent, hrest⟩
  · rintro ⟨hdown, t, more, hkind, hcurrent, hrest⟩
    exact ⟨t, p.at more, (quiet_expect heof hend).mpr ⟨hdown, hkind, more, hcurrent, rfl⟩, hrest⟩

/-- `m` takes tokens of these kinds, one after another, and makes `f` of them. -/
def Consumes (m : Parsing Node) (kinds : List TokenKind) (f : List Token → Node) : Prop :=
  ∀ p n q, Quiet flag m p n q ↔ p.failed = false ∧
    ∃ ts more, ts.map Token.kind = kinds ∧ p.current = ts ++ more ∧ q = p.at more ∧ n = f ts

theorem Consumes.pure {f : List Token → Node} (n : Node) (hn : n = f []) : Consumes (Pure.pure n) [] f := by
  intro p n' q
  rw [quiet_pure]
  constructor
  · rintro ⟨rfl, rfl, hdown⟩
    exact ⟨hdown, [], q.current, rfl, rfl, rfl, hn⟩
  · rintro ⟨hdown, ts, more, hkinds, hcurrent, rfl, rfl⟩
    cases List.map_eq_nil_iff.mp hkinds
    refine ⟨hn.symm, ?_, hdown⟩
    rw [← show p.current = more from hcurrent]
    rfl

theorem Consumes.expect {f : List Token → Node} {g : Token → Parsing Node} {kinds : List TokenKind} (what : String)
    (hkind : kind ≠ .eof ∧ kind ≠ .endMark) (hg : ∀ t, Steady flag (g t))
    (hrest : ∀ t, Consumes (g t) kinds fun ts => f (t :: ts)) : Consumes (Vnx.expect kind what >>= g) (kind :: kinds) f := by
  intro p n q
  rw [quiet_expect_bind hkind.1 hkind.2 hg]
  constructor
  · rintro ⟨hdown, t, more, hkind, hcurrent, hquiet⟩
    obtain ⟨-, ts, more', hkinds, hmore, rfl, rfl⟩ := (hrest t _ n q).mp hquiet
    refine ⟨hdown, t :: ts, more', ?_, ?_, rfl, rfl⟩
    · rw [List.map_cons, hkind, hkinds]
    · rw [hcurrent, List.cons_append, ← hmore]
      rfl
  · rintro ⟨hdown, ts, more, hkinds, hcurrent, rfl, rfl⟩
    obtain ⟨t, ts, rfl, hkind, hkinds⟩ := List.map_eq_cons_iff.mp hkinds
    exact ⟨hdown, t, ts ++ more, hkind, hcurrent, (hrest t _ _ _).mpr ⟨hdown, ts, more, hkinds, rfl, rfl, rfl⟩⟩

/-! ## Statements -/

/-- The node with these operands. -/
def operands (kind : NodeKind) (kw : Token) : List Token → Node
  | [a] => ⟨kind, kw.line, a.text, [], []⟩
  | [a, b] => ⟨kind, kw.line, a.text, b.text, []⟩
  | [a, _, b, _, c] => ⟨kind, kw.line, a.text, b.text, c.text⟩
  | _ => makeNode kind kw.line

theorem set_consumes : Consumes (setSource kw) [.id, .str] (operands .set kw) :=
  .expect _ (by decide) (fun _ => .bind (steady_expect _ _) fun _ => .pure _) fun _ =>
    .expect _ (by decide) (fun _ => .pure _) fun _ => .pure _ rfl

theorem input_consumes : Consumes (inputSource kw) [.id, .str] (operands .input kw) :=
  .expect _ (by decide) (fun _ => .bind (steady_expect _ _) fun _ => .pure _) fun _ =>
    .expect _ (by decide) (fun _ => .pure _) fun _ => .pure _ rfl

theorem label_consumes : Consumes (labelSource kw) [.id] (operands .label kw) :=
  .expect _ (by decide) (fun _ => .pure _) fun _ => .pure _ rfl

theorem jump_consumes : Consumes (jumpSource kw) [.id] (operands .jump kw) :=
  .expect _ (by decide) (fun _ => .pure _) fun _ => .pure _ rfl

/-- `jump` counts as any other word. -/
theorem when_consumes : Consumes (whenSource kw) [.id, .eq, .str, .id, .id] (operands .when kw) := by
  have hlast : ∀ name value : Token, Steady flag (expect .id "label name" >>= fun dest =>
      pure { makeNode .when kw.line with a := name.text, b := value.text, c := dest.text }) :=
    fun _ _ => .bind (steady_expect _ _) fun _ => .pure _
  refine .expect _ (by decide) (fun name => ?_) fun name => .expect _ (by decide) (fun eq => ?_) fun eq =>
    .expect _ (by decide) (fun value => ?_) fun value => .expect _ (by decide) (fun word => hlast name value) fun word =>
    .expect _ (by decide) (fun _ => .pure _) fun _ => .pure _ rfl
  · exact .bind (steady_expect _ _) fun _ => .bind (steady_expect _ _) fun _ => .bind (steady_expect _ _) fun _ => hlast _ _
  · exact .bind (steady_expect _ _) fun _ => .bind (steady_expect _ _) fun _ => hlast _ _
  · exact .bind (steady_expect _ _) fun _ => hlast _ _

theorem end_consumes : Consumes (pure (makeNode .end kw.line)) [] (operands .end kw) := .pure _ rfl

/-- A string is taken as it is, anything else has to be a variable. -/
theorem quiet_say : Quiet flag (saySource kw) p n q ↔ p.failed = false ∧ ∃ v more, p.current = v :: more ∧ q = p.at more ∧
    (v.kind = .str ∧ n = ⟨.say, kw.line, v.text, [], []⟩ ∨ v.kind = .id ∧ n = ⟨.sayVar, kw.line, v.text, [], []⟩) := by
  unfold saySource
  rw [quiet_get]
  by_cases hfront : p.front.kind = .str
  · rw [if_pos hfront, quiet_bind fun _ => Keeps.pure _]
    constructor
    · rintro ⟨v, _, htake, hrest⟩
      obtain ⟨rfl, rfl, hdown⟩ := quiet_take.mp htake
      obtain ⟨rfl, rfl, -⟩ := quiet_pure.mp hrest
      cases hcurrent : p.current with
      | nil =>
          rw [Parser.front, hcurrent] at hfront
          cases hfront
      | cons v more =>
          have hv : p.front = v := by
            rw [Parser.front, hcurrent]
            rfl
          have hadvance : p.advance = p.at more := by
            rw [Parser.advance, if_pos (by rw [hfront]; decide), hcurrent]
            rfl
          rw [hadvance, hv]
          exact ⟨hdown, v, more, rfl, rfl, Or.inl ⟨hv ▸ hfront, rfl⟩⟩
    · rintro ⟨hdown, v, more, hcurrent, rfl, hnode⟩
      have hv : p.front = v := by
        rw [Parser.front, hcurrent]
        rfl
      have hadvance : p.advance = p.at more := by
        rw [Parser.advance, if_pos (by rw [hfront]; decide), hcurrent]
        rfl
      rw [hv] at hfront
      rcases hnode with ⟨-, rfl⟩ | ⟨hid, -⟩
      · exact ⟨v, p.at more, quiet_take.mpr ⟨hv.symm, hadvance.symm, hdown⟩, quiet_pure.mpr ⟨rfl, rfl, hdown⟩⟩
      · rw [hfront] at hid
        cases hid
  · rw [if_neg hfront, quiet_expect_bind (by decide) (by decide) fun _ => .pure _]
    constructor
    · rintro ⟨hdown, v, more, hkind, hcurrent, hrest⟩
      obtain ⟨rfl, rfl, -⟩ := quiet_pure.mp hrest
      exact ⟨hdown, v, more, hcurrent, rfl, Or.inr ⟨hkind, rfl⟩⟩
    · rintro ⟨hdown, v, more, hcurrent, rfl, hnode⟩
      rcases hnode with ⟨hstr, -⟩ | ⟨hid, rfl⟩
      · rw [Parser.front, hcurrent] at hfront
        exact absurd hstr hfront
      · exact ⟨hdown, v, more, hid, hcurrent, quiet_pure.mpr ⟨rfl, rfl, hdown⟩⟩

theorem kinds_one {ts : List Token} {k : TokenKind} (h : ts.map Token.kind = [k]) : ∃ a, ts = [a] ∧ a.kind = k := by
  obtain ⟨a, rest, rfl, ha, hrest⟩ := List.map_eq_cons_iff.mp h
  cases List.map_eq_nil_iff.mp hrest
  exact ⟨a, rfl, ha⟩

theorem kinds_two {ts : List Token} {k k' : TokenKind} (h : ts.map Token.kind = [k, k']) :
    ∃ a b, ts = [a, b] ∧ a.kind = k ∧ b.kind = k' := by
  obtain ⟨a, rest, rfl, ha, hrest⟩ := List.map_eq_cons_iff.mp h
  obtain ⟨b, rfl, hb⟩ := kinds_one hrest
  exact ⟨a, b, rfl, ha, hb⟩

theorem kinds_five {ts : List Token} {k₁ k₂ k₃ k₄ k₅ : TokenKind} (h : ts.map Token.kind = [k₁, k₂, k₃, k₄, k₅]) :
    ∃ a b c d e, ts = [a, b, c, d, e] ∧ a.kind = k₁ ∧ b.kind = k₂ ∧ c.kind = k₃ ∧ d.kind = k₄ ∧ e.kind = k₅ := by
  obtain ⟨a, rest, rfl, ha, hrest⟩ := List.map_eq_cons_iff.mp h
  obtain ⟨b, rest, rfl, hb, hrest⟩ := List.map_eq_cons_iff.mp hrest
  obtain ⟨c, rest, rfl, hc, hrest⟩ := List.map_eq_cons_iff.mp hrest
  obtain ⟨d, e, rfl, hd, he⟩ := kinds_two hrest
  exact ⟨a, b, c, d, e, rfl, ha, hb, hc, hd, he⟩

/-- A statement that goes through is one of the forms, but for the keyword in `when`. -/
theorem statement_form (hkw : kw.kind = .id) (h : Quiet flag (statement kw) p n q) :
    p.failed = false ∧ ∃ ts more, p.current = ts ++ more ∧ q = p.at more ∧ Form (fun _ => True) (kw :: ts) n := by
  unfold statement at h
  by_cases hsay : kw.text = ascii "say"
  · rw [if_pos hsay] at h
    obtain ⟨hdown, v, more, hcurrent, rfl, ⟨hv, rfl⟩ | ⟨hv, rfl⟩⟩ := quiet_say.mp h
    · exact ⟨hdown, [v], more, hcurrent, rfl, .say ⟨hkw, hsay⟩ hv⟩
    · exact ⟨hdown, [v], more, hcurrent, rfl, .sayVar ⟨hkw, hsay⟩ hv⟩
  rw [if_neg hsay] at h
  by_cases hset : kw.text = ascii "set"
  · rw [if_pos hset] at h
    obtain ⟨hdown, ts, more, hkinds, hcurrent, rfl, rfl⟩ := (set_consumes _ _ _).mp h
    obtain ⟨name, value, rfl, hname, hvalue⟩ := kinds_two hkinds
    exact ⟨hdown, _, more, hcurrent, rfl, .set ⟨hkw, hset⟩ hname hvalue⟩
  rw [if_neg hset] at h
  by_cases hinput : kw.text = ascii "input"
  · rw [if_pos hinput] at h
    obtain ⟨hdown, ts, more, hkinds, hcurrent, rfl, rfl⟩ := (input_consumes _ _ _).mp h
    obtain ⟨name, prompt, rfl, hname, hprompt⟩ := kinds_two hkinds
    exact ⟨hdown, _, more, hcurrent, rfl, .input ⟨hkw, hinput⟩ hname hprompt⟩
  rw [if_neg hinput] at h
  by_cases hlabel : kw.text = ascii "label"
  · rw [if_pos hlabel] at h
    obtain ⟨hdown, ts, more, hkinds, hcurrent, rfl, rfl⟩ := (label_consumes _ _ _).mp h
    obtain ⟨name, rfl, hname⟩ := kinds_one hkinds
    exact ⟨hdown, _, more, hcurrent, rfl, .label ⟨hkw, hlabel⟩ hname⟩
  rw [if_neg hlabel] at h
  by_cases hjump : kw.text = ascii "jump"
  · rw [if_pos hjump] at h
    obtain ⟨hdown, ts, more, hkinds, hcurrent, rfl, rfl⟩ := (jump_consumes _ _ _).mp h
    obtain ⟨name, rfl, hname⟩ := kinds_one hkinds
    exact ⟨hdown, _, more, hcurrent, rfl, .jump ⟨hkw, hjump⟩ hname⟩
  rw [if_neg hjump] at h
  by_cases hwhen : kw.text = ascii "when"
  · rw [if_pos hwhen] at h
    obtain ⟨hdown, ts, more, hkinds, hcurrent, rfl, rfl⟩ := (when_consumes _ _ _).mp h
    obtain ⟨name, eq, value, word, dest, rfl, hname, heq, hvalue, hword, hdest⟩ := kinds_five hkinds
    exact ⟨hdown, _, more, hcurrent, rfl, .when ⟨hkw, hwhen⟩ hname heq hvalue hword trivial hdest⟩
  rw [if_neg hwhen] at h
  by_cases hend : kw.text = ascii "end"
  · rw [if_pos hend] at h
    obtain ⟨hdown, ts, more, hkinds, hcurrent, rfl, rfl⟩ := (end_consumes _ _ _).mp h
    cases List.map_eq_nil_iff.mp hkinds
    exact ⟨hdown, [], more, hcurrent, rfl, .end ⟨hkw, hend⟩⟩
  · rw [if_neg hend] at h
    cases h.1
    cases h.2

/-- One of the forms goes through, whatever stands behind it. -/
theorem form_statement {keyword : Bytes → Prop} {ts more : List Token} (hform : Form keyword (kw :: ts) n)
    (hdown : p.failed = false) (hcurrent : p.current = ts ++ more) : Quiet flag (statement kw) p n (p.at more) := by
  have hword : ∀ {word other : String}, kw.IsWord word → ascii word ≠ ascii other → ¬kw.text = ascii other := by
    intro word other hkw hne h
    exact hne (hkw.2.symm.trans h)
  unfold statement
  cases hform with
  | say hkw hv =>
      rw [if_pos hkw.2]
      exact quiet_say.mpr ⟨hdown, _, more, hcurrent, rfl, Or.inl ⟨hv, rfl⟩⟩
  | sayVar hkw hv =>
      rw [if_pos hkw.2]
      exact quiet_say.mpr ⟨hdown, _, more, hcurrent, rfl, Or.inr ⟨hv, rfl⟩⟩
  | set hkw hname hvalue =>
      rw [if_neg (hword hkw (by decide)), if_pos hkw.2]
      exact (set_consumes _ _ _).mpr ⟨hdown, _, more, by simp only [List.map, hname, hvalue], hcurrent, rfl, rfl⟩
  | input hkw hname hprompt =>
      rw [if_neg (hword hkw (by decide)), if_neg (hword hkw (by decide)), if_pos hkw.2]
      exact (input_consumes _ _ _).mpr ⟨hdown, _, more, by simp only [List.map, hname, hprompt], hcurrent, rfl, rfl⟩
  | label hkw hname =>
      rw [if_neg (hword hkw (by decide)), if_neg (hword hkw (by decide)), if_neg (hword hkw (by decide)), if_pos hkw.2]
      exact (label_consumes _ _ _).mpr ⟨hdown, _, more, by simp only [List.map, hname], hcurrent, rfl, rfl⟩
  | jump hkw hname =>
      rw [if_neg (hword hkw (by decide)), if_neg (hword hkw (by decide)), if_neg (hword hkw (by decide)),
        if_neg (hword hkw (by decide)), if_pos hkw.2]
      exact (jump_consumes _ _ _).mpr ⟨hdown, _, more, by simp only [List.map, hname], hcurrent, rfl, rfl⟩
  | when hkw hname heq hvalue hword' hjump hdest =>
      rw [if_neg (hword hkw (by decide)), if_neg (hword hkw (by decide)), if_neg (hword hkw (by decide)),
        if_neg (hword hkw (by decide)), if_neg (hword hkw (by decide)), if_pos hkw.2]
      exact (when_consumes _ _ _).mpr
        ⟨hdown, _, more, by simp only [List.map, hname, heq, hvalue, hword', hdest], hcurrent, rfl, rfl⟩
  | «end» hkw =>
      rw [if_neg (hword hkw (by decide)), if_neg (hword hkw (by decide)), if_neg (hword hkw (by decide)),
        if_neg (hword hkw (by decide)), if_neg (hword hkw (by decide)), if_neg (hword hkw (by decide)), if_pos hkw.2]
      exact (end_consumes _ _ _).mpr ⟨hdown, [], more, rfl, hcurrent, rfl, rfl⟩

/-! ## Lines -/

/-- The tokens of a line. -/
def Token.InLine (t : Token) : Prop := t.kind = .str ∨ t.kind = .id ∨ t.kind = .eq

theorem Form.inLine {keyword : Bytes → Prop} {ts : List Token} (h : Form keyword ts n) : ∀ t ∈ ts, t.InLine := by
  cases h <;> simp_all [Token.InLine, Token.IsWord]

theorem Form.word {keyword : Bytes → Prop} {ts : List Token} (h : Form keyword ts n) :
    ∃ kw operands, ts = kw :: operands ∧ kw.kind = .id := by
  cases h with
  | say hkw => exact ⟨_, _, rfl, hkw.1⟩
  | sayVar hkw => exact ⟨_, _, rfl, hkw.1⟩
  | set hkw => exact ⟨_, _, rfl, hkw.1⟩
  | input hkw => exact ⟨_, _, rfl, hkw.1⟩
  | label hkw => exact ⟨_, _, rfl, hkw.1⟩
  | jump hkw => exact ⟨_, _, rfl, hkw.1⟩
  | when hkw => exact ⟨_, _, rfl, hkw.1⟩
  | «end» hkw => exact ⟨_, _, rfl, hkw.1⟩

/-- Nothing but the end of the line may stand behind a statement. -/
theorem quiet_endLine : Quiet flag endLine p () q ↔
    p.failed = false ∧ (p.front.kind = .nl ∨ p.front.kind = .eof) ∧ q = p.at (skipTokens p.current) := by
  unfold endLine
  rw [quiet_get]
  by_cases hnl : p.front.kind = .nl
  · rw [if_pos hnl]
    constructor
    · rintro ⟨hrun, hdown⟩
      cases hrun
      exact ⟨hdown, Or.inl hnl, rfl⟩
    · rintro ⟨hdown, -, rfl⟩
      exact ⟨rfl, hdown⟩
  rw [if_neg hnl]
  by_cases heof : p.front.kind = .eof
  · have hstay : p.at (skipTokens p.current) = p := by
      cases hcurrent : p.current with
      | nil =>
          rw [Parser.front, hcurrent] at heof
          cases heof
      | cons t more =>
          rw [Parser.front, hcurrent] at hnl
          have hfirst : ¬t.kind = .nl := hnl
          rw [skipTokens, if_neg hfirst, ← hcurrent]
          rfl
    rw [if_neg (fun h => h.1 heof), quiet_pure, hstay]
    constructor
    · rintro ⟨-, rfl, hdown⟩
      exact ⟨hdown, Or.inr heof, rfl⟩
    · rintro ⟨hdown, -, rfl⟩
      exact ⟨rfl, rfl, hdown⟩
  · constructor
    · rintro ⟨hrun, hdown⟩
      by_cases hfailed : p.failed = false
      · rw [if_pos ⟨heof, hfailed⟩] at hrun
        cases hrun
        cases hdown
      · rw [if_neg (fun h => hfailed h.2)] at hrun
        cases hrun
        exact absurd hdown hfailed
    · rintro ⟨-, hfront | hfront, -⟩
      · exact absurd hfront hnl
      · exact absurd hfront heof

theorem quiet_addQuietly : Quiet flag (addQuietly n) p () q ↔
    p.failed = false ∧ q = { p with program := p.program ++ [n] } := by
  unfold addQuietly
  rw [quiet_get]
  by_cases hfailed : p.failed = true
  · rw [if_pos hfailed, quiet_pure]
    constructor
    · rintro ⟨-, -, hdown⟩
      exact absurd (hfailed.symm.trans hdown) (by decide)
    · rintro ⟨hdown, -⟩
      exact absurd (hfailed.symm.trans hdown) (by decide)
  · rw [if_neg hfailed]
    have hdown : p.failed = false := Bool.eq_false_iff.mpr hfailed
    constructor
    · rintro ⟨hrun, -⟩
      cases hrun
      exact ⟨hdown, rfl⟩
    · rintro ⟨-, rfl⟩
      exact ⟨rfl, hdown⟩

/-- A line that goes through: what it takes, and the node it leaves. -/
theorem quiet_parseLine : Quiet flag parseLine p () q ↔ p.failed = false ∧ ∃ line more n, p.current = line ++ more ∧
    Form (fun _ => True) line n ∧ ((p.at more).front.kind = .nl ∨ (p.at more).front.kind = .eof) ∧
    q = { p with current := skipTokens more, program := p.program ++ [n] } := by
  have hadd : ∀ n, Steady flag (addQuietly n >>= fun _ => endLine) := fun n =>
    .bind (steady_addQuietly n) fun _ => steady_endLine
  have hstatement : ∀ kw, Steady flag (statement kw >>= fun n => addQuietly n >>= fun _ => endLine) := fun kw =>
    .bind (steady_statement kw) hadd
  unfold parseLine
  rw [quiet_expect_bind (by decide) (by decide) hstatement]
  constructor
  · rintro ⟨hdown, kw, more, hkw, hcurrent, hrest⟩
    obtain ⟨n, _, hkwline, hrest⟩ := (quiet_bind fun n => (hadd n).keeps).mp hrest
    obtain ⟨-, ts, more, hts, rfl, hform⟩ := statement_form hkw hkwline
    obtain ⟨_, _, hadded, hend⟩ := (quiet_bind fun _ => steady_endLine.keeps).mp hrest
    obtain ⟨-, rfl⟩ := quiet_addQuietly.mp hadded
    obtain ⟨-, hfront, rfl⟩ := quiet_endLine.mp hend
    refine ⟨hdown, kw :: ts, more, n, ?_, hform, hfront, rfl⟩
    rw [hcurrent, List.cons_append, ← hts]
    rfl
  · rintro ⟨hdown, line, more, n, hcurrent, hform, hfront, rfl⟩
    obtain ⟨kw, ts, rfl, hkw⟩ := hform.word
    refine ⟨hdown, kw, ts ++ more, hkw, hcurrent, ?_⟩
    refine (quiet_bind fun n => (hadd n).keeps).mpr ⟨n, p.at more, form_statement hform hdown rfl, ?_⟩
    refine (quiet_bind fun _ => steady_endLine.keeps).mpr ⟨(), _, quiet_addQuietly.mpr ⟨hdown, rfl⟩, ?_⟩
    exact quiet_endLine.mpr ⟨hdown, hfront, rfl⟩

/-! ## Cutting at the ends of lines -/

variable {keyword : Bytes → Prop} {line rest body : List Token} {nodes : List Node}

theorem Token.InLine.not_endsLine (h : t.InLine) : t.endsLine = false := by
  unfold Token.endsLine
  rcases h with h | h | h <;> rw [h] <;> rfl

theorem readAs_line (hline : ∀ t ∈ line, t.InLine) (hne : line ≠ [])
    (hrest : rest = [] ∨ ∃ t more, rest = t :: more ∧ t.kind = .nl) :
    ReadAs keyword ((line ++ rest).splitOnP Token.endsLine) nodes ↔
      ∃ n ns, Form keyword line n ∧ ReadAs keyword (rest.splitOnP Token.endsLine) ns ∧ nodes = n :: ns := by
  have hnone : ∀ t ∈ line, t.endsLine = false := fun t ht => (hline t ht).not_endsLine
  have hempty : ReadAs keyword ([[]] : List (List Token)) = ReadAs keyword [] := rfl
  unfold ReadAs
  rcases hrest with rfl | ⟨t, more, rfl, ht⟩
  · rw [List.append_nil, List.splitOnP_eq_singleton hnone, List.filter_cons_of_pos (by simpa using hne),
      List.forall₂_cons_left_iff]
    rfl
  · have hends : t.endsLine = true := decide_eq_true ht
    rw [List.splitOnP_append_cons_of_forall_mem hnone t hends, List.filter_cons_of_pos (by simpa using hne),
      List.forall₂_cons_left_iff, List.splitOnP_cons_eq_if_modifyHead, if_pos hends, List.filter_cons_of_neg (by simp)]

/-- Empty lines leave no nodes. -/
theorem readAs_skip (tokens : List Token) : ReadAs keyword ((skipTokens tokens).splitOnP Token.endsLine) nodes ↔
    ReadAs keyword (tokens.splitOnP Token.endsLine) nodes := by
  induction tokens with
  | nil => exact Iff.rfl
  | cons t more ih =>
      unfold skipTokens
      by_cases hnl : t.kind = .nl
      · have hends : t.endsLine = true := decide_eq_true hnl
        rw [if_pos hnl, ih, List.splitOnP_cons_eq_if_modifyHead, if_pos hends]
        unfold ReadAs
        rw [List.filter_cons_of_neg (by simp)]
      · rw [if_neg hnl]

theorem skipTokens_append {e : Token} (he : e.kind ≠ .nl) (tokens : List Token) :
    skipTokens (tokens ++ [e]) = skipTokens tokens ++ [e] := by
  induction tokens with
  | nil => exact if_neg he
  | cons t more ih =>
      rw [List.cons_append, skipTokens, skipTokens]
      split
      · exact ih
      · rfl

theorem skipTokens_sublist (tokens : List Token) : (skipTokens tokens).Sublist tokens := by
  induction tokens with
  | nil => exact List.Sublist.refl _
  | cons t more ih =>
      unfold skipTokens
      split
      · exact ih.cons t
      · exact List.Sublist.refl _

theorem skipTokens_head {more : List Token} (tokens : List Token) (h : skipTokens tokens = t :: more) : t.kind ≠ .nl := by
  induction tokens with
  | nil => cases h
  | cons first rest ih =>
      unfold skipTokens at h
      split at h
      · exact ih h
      · next hne =>
          cases h
          exact hne

/-! ## The loop over the lines -/

/-- A list falls into a first line and what ends it in one way only. -/
theorem line_unique {line' more more' : List Token} (h : line ++ more = line' ++ more') (hline : ∀ t ∈ line, t.InLine)
    (hline' : ∀ t ∈ line', t.InLine) (hmore : ∀ t ∈ more.head?, ¬t.InLine) (hmore' : ∀ t ∈ more'.head?, ¬t.InLine) :
    line = line' ∧ more = more' := by
  induction line generalizing line' with
  | nil =>
      cases line' with
      | nil => exact ⟨rfl, h⟩
      | cons t ts =>
          rw [List.nil_append] at h
          rw [h] at hmore
          exact absurd (hline' t List.mem_cons_self) (hmore t rfl)
  | cons t ts ih =>
      cases line' with
      | nil =>
          rw [List.nil_append] at h
          rw [← h] at hmore'
          exact absurd (hline t List.mem_cons_self) (hmore' t rfl)
      | cons t' ts' =>
          obtain ⟨rfl, hts⟩ := List.cons.inj h
          obtain ⟨rfl, hsame⟩ := ih hts (fun x hx => hline x (List.mem_cons_of_mem _ hx))
            fun x hx => hline' x (List.mem_cons_of_mem _ hx)
          exact ⟨rfl, hsame⟩

/-- The first line of what is left, and what stands behind it. -/
theorem first_line (hbody : ∀ t ∈ body, t.InLine ∨ t.kind = .nl) :
    ∃ line rest, body = line ++ rest ∧ (∀ t ∈ line, t.InLine) ∧ (rest = [] ∨ ∃ t more, rest = t :: more ∧ t.kind = .nl) := by
  induction body with
  | nil => exact ⟨[], [], rfl, fun _ h => absurd h List.not_mem_nil, Or.inl rfl⟩
  | cons t more ih =>
      rcases hbody t List.mem_cons_self with hin | hnl
      · obtain ⟨line, rest, rfl, hline, hrest⟩ := ih fun x hx => hbody x (List.mem_cons_of_mem _ hx)
        refine ⟨t :: line, rest, rfl, ?_, hrest⟩
        intro x hx
        rcases List.mem_cons.mp hx with rfl | hx
        · exact hin
        · exact hline x hx
      · exact ⟨[], t :: more, rfl, fun _ h => absurd h List.not_mem_nil, Or.inr ⟨t, more, rfl, hnl⟩⟩

theorem not_inLine (h : t.kind = .nl ∨ t.kind = .eof) : ¬t.InLine := by
  rintro (hin | hin | hin) <;> rw [hin] at h <;> rcases h with h | h <;> cases h

theorem front_ends {more : List Token} (h : (p.at more).front.kind = .nl ∨ (p.at more).front.kind = .eof) (ht : t ∈ more.head?) :
    t.kind = .nl ∨ t.kind = .eof := by
  cases more with
  | nil => cases ht
  | cons first rest =>
      cases ht
      exact h

theorem goesOn_run (p : Parser) :
    goesOn p = .ok (decide (p.front.kind ≠ .eof ∧ p.failed = false), p) := rfl

theorem steady_goesOn : Steady flag goesOn := .bind .get fun _ => .pure _

/-- **What goes through is read.** The loop ends with the flag down if and only if every line has a form, and then its node has
been hung behind the others. -/
theorem quiet_loop {e : Token} (he : e.kind = .eof) {turns : Nat} : ∀ {body : List Token} {p : Parser},
    p.current = body ++ [e] → (∀ t ∈ body, t.InLine ∨ t.kind = .nl) → (∀ t ∈ body.head?, t.kind ≠ .nl) → p.failed = false →
    body.length < turns → (Quiet flag (Prog.whileDo .outOfClock goesOn parseLine turns) p () q ↔
      ∃ nodes, ReadAs (fun _ => True) (body.splitOnP Token.endsLine) nodes ∧
        q = { p with current := [e], program := p.program ++ nodes }) := by
  induction turns with
  | zero =>
      intro body p _ _ _ _ hturns
      exact absurd hturns (Nat.not_lt_zero _)
  | succ turns ih =>
      intro body p hcurrent hbody hhead hdown hturns
      rw [quiet_while (goesOn_run p) steady_goesOn.keeps steady_parseLine.keeps]
      cases body with
      | nil =>
          have hfront : p.front.kind = .eof := by
            rw [Parser.front, hcurrent]
            exact he
          have hstop : decide (p.front.kind ≠ .eof ∧ p.failed = false) = false := decide_eq_false fun h => h.1 hfront
          rw [hstop, if_neg Bool.false_ne_true]
          constructor
          · rintro ⟨rfl, -⟩
            refine ⟨[], List.Forall₂.nil, ?_⟩
            rw [List.append_nil, ← show q.current = [e] from hcurrent]
          · rintro ⟨nodes, hread, rfl⟩
            cases hread
            rw [List.append_nil, ← show p.current = [e] from hcurrent]
            exact ⟨rfl, hdown⟩
      | cons t more =>
          have hin : t.InLine := (hbody t List.mem_cons_self).resolve_right (hhead t rfl)
          have hfront : p.front = t := by
            rw [Parser.front, hcurrent]
            rfl
          have hgo : decide (p.front.kind ≠ .eof ∧ p.failed = false) = true := by
            refine decide_eq_true ⟨?_, hdown⟩
            rw [hfront]
            rcases hin with h | h | h <;> rw [h] <;> decide
          obtain ⟨line, rest, hsplit, hline, hrest⟩ := first_line hbody
          have hne : line ≠ [] := by
            rintro rfl
            rcases hrest with rfl | ⟨t', more', rfl, hnl⟩
            · cases hsplit
            · cases hsplit
              exact hhead t rfl hnl
          have hends : ∀ x ∈ (rest ++ [e]).head?, x.kind = .nl ∨ x.kind = .eof := by
            intro x hx
            rcases hrest with rfl | ⟨t', more', rfl, hnl⟩
            · cases hx
              exact Or.inr he
            · cases hx
              exact Or.inl hnl
          have hshort : (skipTokens rest).length < turns := by
            have hle := (skipTokens_sublist rest).length_le
            have hlength := congrArg List.length hsplit
            have hpos := List.length_pos_of_ne_nil hne
            rw [List.length_append] at hlength
            omega
          have hafter := fun n => @ih (skipTokens rest)
            { p with current := skipTokens (rest ++ [e]), program := p.program ++ [n] }
            (skipTokens_append (by rw [he]; decide) rest) (fun x hx => hbody x (by
              rw [hsplit]
              exact List.mem_append_right line ((skipTokens_sublist rest).subset hx)))
            (fun x hx => by
              obtain ⟨tail, htail⟩ := List.head?_eq_some_iff.mp hx
              exact skipTokens_head rest htail) hdown hshort
          rw [hgo, if_pos rfl, hsplit]
          constructor
          · rintro ⟨p', hparse, hloop⟩
            obtain ⟨-, line', more', n, hcut, hform, hfront', rfl⟩ := quiet_parseLine.mp hparse
            rw [hcurrent, hsplit, List.append_assoc] at hcut
            obtain ⟨rfl, rfl⟩ := line_unique hcut hline hform.inLine (fun x hx => not_inLine (hends x hx))
              fun x hx => not_inLine (front_ends hfront' hx)
            obtain ⟨nodes, hread, rfl⟩ := (hafter n).mp hloop
            refine ⟨n :: nodes, (readAs_line hline hne hrest).mpr ⟨n, nodes, hform, (readAs_skip rest).mp hread, rfl⟩, ?_⟩
            rw [List.append_assoc]
            rfl
          · rintro ⟨nodes, hread, rfl⟩
            obtain ⟨n, ns, hform, hns, rfl⟩ := (readAs_line hline hne hrest).mp hread
            refine ⟨_, quiet_parseLine.mpr ⟨hdown, line, rest ++ [e], n, ?_, hform, ?_, rfl⟩, (hafter n).mpr
              ⟨ns, (readAs_skip rest).mpr hns, ?_⟩⟩
            · rw [hcurrent, hsplit, List.append_assoc]
            · rcases hrest with rfl | ⟨t', more', rfl, hnl⟩
              · exact Or.inr he
              · exact Or.inl hnl
            · rw [List.append_assoc]
              rfl

/-! ## Whole sources -/

/-- Every turn takes a token or raises the flag, so that the loop ends on every list of tokens. -/
theorem loop_returns (turns : Nat) : ∀ p : Parser, p.current.length + 1 < turns →
    ∃ q, Prog.whileDo .outOfClock goesOn parseLine turns p = .ok ((), q) := by
  induction turns with
  | zero =>
      intro p hturns
      exact absurd hturns (Nat.not_lt_zero _)
  | succ turns ih =>
      intro p hturns
      have hturn : Prog.whileDo .outOfClock goesOn parseLine (turns + 1) p =
          (if decide (p.front.kind ≠ .eof ∧ p.failed = false) = true then
            parseLine >>= fun _ => Prog.whileDo .outOfClock goesOn parseLine turns else pure ()) p :=
        Prog.bind_run_ok (goesOn_run p)
      rw [hturn]
      by_cases hgo : decide (p.front.kind ≠ .eof ∧ p.failed = false) = true
      · obtain ⟨_, q, hrun⟩ := steady_parseLine.returns p
        rw [if_pos hgo, Prog.bind_run_ok hrun]
        cases hfailed : q.failed with
        | true =>
            -- The next look at the flag ends the loop.
            obtain ⟨left, rfl⟩ : ∃ left, turns = left + 1 := ⟨turns - 1, by omega⟩
            have hstop : decide (q.front.kind ≠ .eof ∧ q.failed = false) = false := by
              apply decide_eq_false
              rw [hfailed]
              exact fun h => Bool.false_ne_true h.2.symm
            refine ⟨q, (Prog.bind_run_ok (goesOn_run q)).trans ?_⟩
            rw [hstop]
            rfl
        | false =>
            obtain ⟨-, line, more, n, hcurrent, hform, -, rfl⟩ := quiet_parseLine.mp ⟨hrun, hfailed⟩
            obtain ⟨kw, operands, rfl, -⟩ := hform.word
            apply ih
            have hle := (skipTokens_sublist more).length_le
            rw [hcurrent, List.cons_append, List.length_cons, List.length_append] at hturns
            show (skipTokens more).length + 1 < turns
            omega
      · rw [if_neg hgo]
        exact ⟨p, rfl⟩

/-- `parse` skips the empty lines in front and then runs its loop. -/
theorem parseTokens_loop (tokens : List Token) : ∃ q, parseTokens tokens = .ok q ∧
    Prog.whileDo .outOfClock goesOn parseLine (tokens.length + 2) ⟨skipTokens tokens, [], false, []⟩ = .ok ((), q) := by
  have hle := (skipTokens_sublist tokens).length_le
  obtain ⟨q, hrun⟩ := loop_returns (tokens.length + 2) ⟨skipTokens tokens, [], false, []⟩ (by
    show (skipTokens tokens).length + 1 < _
    omega)
  have hparse : parse (tokens.length + 2) ⟨tokens, [], false, []⟩ = .ok ((), q) := hrun
  refine ⟨q, ?_, hrun⟩
  rw [parseTokens, hparse]
  rfl

theorem Token.Inner.inLine (h : t.Inner) : t.InLine ∨ t.kind = .nl := by
  rcases h with hkind | hkind | hkind | hkind
  · exact Or.inr hkind
  · exact Or.inl (Or.inl hkind)
  · exact Or.inl (Or.inr (Or.inl hkind))
  · exact Or.inl (Or.inr (Or.inr hkind))

/-- `parse` goes through exactly when the lines can be read, up to the word in `when`; the nodes are what has been read. -/
theorem parseTokens_reads {e : Token} (he : e.kind = .eof) (hbody : ∀ t ∈ body, t.Inner) :
    ∃ q, parseTokens (body ++ [e]) = .ok q ∧
      (q.failed = false → ReadAs (fun _ => True) (lines (body ++ [e])) q.program) ∧
      ∀ nodes, ReadAs (fun _ => True) (lines (body ++ [e])) nodes → q.failed = false := by
  obtain ⟨q, hq, hloop⟩ := parseTokens_loop (body ++ [e])
  have hlast : e.kind ≠ .nl := by
    rw [he]
    decide
  have hsub := skipTokens_sublist body
  have hiff := fun q => @quiet_loop q e he ((body ++ [e]).length + 2) (skipTokens body)
    ⟨skipTokens (body ++ [e]), [], false, []⟩ (skipTokens_append hlast body)
    (fun t ht => (hbody t (hsub.subset ht)).inLine)
    (fun t ht => by
      obtain ⟨tail, htail⟩ := List.head?_eq_some_iff.mp ht
      exact skipTokens_head body htail) rfl (by
        have hle := hsub.length_le
        rw [List.length_append]
        omega)
  have hlines : lines (body ++ [e]) = body.splitOnP Token.endsLine := by
    rw [lines, List.dropLast_concat]
  rw [hlines]
  refine ⟨q, hq, ?_, ?_⟩
  · intro hdown
    obtain ⟨nodes, hread, rfl⟩ := (hiff q).mp ⟨hloop, hdown⟩
    exact (readAs_skip body).mp hread
  · intro nodes hread
    obtain ⟨hrun, hdown⟩ := (hiff _).mpr ⟨nodes, (readAs_skip body).mpr hread, rfl⟩
    cases hloop.symm.trans hrun
    exact hdown

/-! ## The language -/

/-- The documented word. -/
def Jump (word : Bytes) : Prop := word = ascii "jump"

/-- A line of the language. -/
def IsLine (keyword : Bytes → Prop) (l : List Token) : Prop := l = [] ∨ ∃ n, Form keyword l n

/-- A `when` with something else where `jump` belongs. -/
def WrongWord (l : List Token) : Prop := ∃ kw name eq value word dest : Token,
  l = [kw, name, eq, value, word, dest] ∧ kw.IsWord "when" ∧ ¬Jump word.text

/-- `parse` accepts the lines of the language and no others, and makes one node of each that is not empty. -/
def Accepts (tokens : List Token) (p : Parser) : Prop :=
  (p.failed = false ↔ ∀ l ∈ lines tokens, IsLine Jump l) ∧ (p.failed = false → ReadAs Jump (lines tokens) p.program)

theorem Form.narrow {l : List Token} (h : Form (fun _ => True) l n) (hright : ¬WrongWord l) : Form Jump l n := by
  cases h with
  | say hkw hv => exact .say hkw hv
  | sayVar hkw hv => exact .sayVar hkw hv
  | set hkw hname hvalue => exact .set hkw hname hvalue
  | input hkw hname hprompt => exact .input hkw hname hprompt
  | label hkw hname => exact .label hkw hname
  | jump hkw hname => exact .jump hkw hname
  | when hkw hname heq hvalue hword _ hdest =>
      refine .when hkw hname heq hvalue hword (Classical.byContradiction fun hwrong => ?_) hdest
      exact hright ⟨_, _, _, _, _, _, rfl, hkw, hwrong⟩
  | «end» hkw => exact .end hkw

theorem Form.widen {l : List Token} (h : Form keyword l n) : Form (fun _ => True) l n := by
  cases h with
  | say hkw hv => exact .say hkw hv
  | sayVar hkw hv => exact .sayVar hkw hv
  | set hkw hname hvalue => exact .set hkw hname hvalue
  | input hkw hname hprompt => exact .input hkw hname hprompt
  | label hkw hname => exact .label hkw hname
  | jump hkw hname => exact .jump hkw hname
  | when hkw hname heq hvalue hword _ hdest => exact .when hkw hname heq hvalue hword trivial hdest
  | «end» hkw => exact .end hkw

theorem Form.not_wrongWord {l : List Token} (h : Form Jump l n) : ¬WrongWord l := by
  rintro ⟨kw, name, eq, value, word, dest, rfl, -, hwrong⟩
  cases h with
  | when _ _ _ _ _ hjump _ => exact hwrong hjump

/-- Lines can be read if each of them can. -/
theorem readAs_exists (ls : List (List Token)) : (∃ nodes, ReadAs keyword ls nodes) ↔ ∀ l ∈ ls, IsLine keyword l := by
  induction ls with
  | nil => exact ⟨fun _ _ h => absurd h List.not_mem_nil, fun _ => ⟨[], .nil⟩⟩
  | cons l ls ih =>
      rw [List.forall_mem_cons, ← ih]
      unfold ReadAs
      by_cases hempty : l = []
      · rw [List.filter_cons_of_neg (by simpa using hempty)]
        exact ⟨fun h => ⟨Or.inl hempty, h⟩, fun h => h.2⟩
      · rw [List.filter_cons_of_pos (by simpa using hempty)]
        constructor
        · rintro ⟨nodes, hread⟩
          obtain ⟨n, ns, hform, hns, rfl⟩ := List.forall₂_cons_left_iff.mp hread
          exact ⟨Or.inr ⟨n, hform⟩, ns, hns⟩
        · rintro ⟨hline, ns, hns⟩
          obtain ⟨n, hform⟩ := hline.resolve_left hempty
          exact ⟨n :: ns, .cons hform hns⟩

theorem readAs_narrow {ls : List (List Token)} (h : ReadAs (fun _ => True) ls nodes) (hright : ∀ l ∈ ls, ¬WrongWord l) :
    ReadAs Jump ls nodes := by
  have hall : ∀ l ∈ ls.filter fun l => l ≠ [], ¬WrongWord l := fun l hl => hright l (List.mem_filter.mp hl).1
  unfold ReadAs at h ⊢
  generalize (ls.filter fun l => l ≠ []) = statements at h hall
  induction h with
  | nil => exact .nil
  | cons hform _ ih =>
      exact .cons (hform.narrow (hall _ List.mem_cons_self)) (ih fun l hl => hall l (List.mem_cons_of_mem _ hl))

/-- **The parser of VNX.** `lex` and `parse` return on every source. Where `lex` has not failed, `parse` accepts exactly the
documented language unless all lines are statements of it up to the word `jump` and some `when` has another word there: such a
source it accepts too. -/
theorem parse_exact (source : Bytes) : ∃ s, lex source = .ok s ∧ (s.failed = false → ∃ p, parseTokens s.tokens = .ok p ∧
    (Accepts s.tokens p ↔
      ¬((∀ l ∈ lines s.tokens, IsLine (fun _ => True) l) ∧ ∃ l ∈ lines s.tokens, WrongWord l))) := by
  obtain ⟨s, body, e, hlex, htokens, he, hinner⟩ := lex_ok source
  refine ⟨s, hlex, fun _ => ?_⟩
  obtain ⟨p, hparse, hread, hquiet⟩ := parseTokens_reads he hinner
  rw [← htokens] at hparse hread hquiet
  have hwide : p.failed = false ↔ ∀ l ∈ lines s.tokens, IsLine (fun _ => True) l := by
    rw [← readAs_exists]
    exact ⟨fun hdown => ⟨p.program, hread hdown⟩, fun ⟨nodes, hnodes⟩ => hquiet nodes hnodes⟩
  have hwiden : ∀ l, IsLine Jump l → IsLine (fun _ => True) l := fun l hl => hl.imp id fun ⟨n, hn⟩ => ⟨n, hn.widen⟩
  refine ⟨p, hparse, ?_⟩
  constructor
  · rintro ⟨haccepts, -⟩ ⟨hall, l, hl, hwrong⟩
    rcases haccepts.mp (hwide.mpr hall) l hl with rfl | ⟨n, hform⟩
    · obtain ⟨_, _, _, _, _, _, hcons, -⟩ := hwrong
      cases hcons
    · exact hform.not_wrongWord hwrong
  · intro hcondition
    have hright : p.failed = false → ∀ l ∈ lines s.tokens, ¬WrongWord l := by
      intro hdown l hl hwrong
      exact hcondition ⟨hwide.mp hdown, l, hl, hwrong⟩
    have hnarrow : p.failed = false → ReadAs Jump (lines s.tokens) p.program := fun hdown =>
      readAs_narrow (hread hdown) (hright hdown)
    refine ⟨⟨fun hdown => (readAs_exists _).mp ⟨p.program, hnarrow hdown⟩, fun hall => ?_⟩, hnarrow⟩
    exact hwide.mpr fun l hl => hwiden l (hall l hl)

/-- The tokens of `when x == "1" foo lbl`. -/
def fooLine : List Token :=
  [⟨.id, ascii "when", 1⟩, ⟨.id, ascii "x", 1⟩, ⟨.eq, ascii "==", 1⟩, ⟨.str, ascii "1", 1⟩, ⟨.id, ascii "foo", 1⟩,
    ⟨.id, ascii "lbl", 1⟩]

/-- This line is accepted, with `foo` for `jump`. -/
theorem parse_takes_foo : ∃ s p, lex (ascii "when x == \"1\" foo lbl") = .ok s ∧ s.failed = false ∧
    parseTokens s.tokens = .ok p ∧ p.failed = false ∧ ¬Accepts s.tokens p := by
  refine ⟨⟨21, 1, fooLine ++ [⟨.eof, [], 1⟩], false, []⟩,
    ⟨[⟨.eof, [], 1⟩], [⟨.when, 1, ascii "x", ascii "1", ascii "lbl"⟩], false, []⟩, by rfl, rfl, by rfl, rfl, ?_⟩
  intro haccepts
  have hline : fooLine ∈ lines (fooLine ++ [⟨.eof, [], 1⟩]) := List.mem_singleton.mpr rfl
  have hfoo : ¬ascii "foo" = ascii "jump" := by decide
  have hwrong : WrongWord fooLine := ⟨_, _, _, _, _, _, rfl, ⟨rfl, rfl⟩, hfoo⟩
  rcases haccepts.1.mp rfl fooLine hline with hempty | ⟨n, hform⟩
  · exact absurd hempty (List.cons_ne_nil _ _)
  · exact hform.not_wrongWord hwrong

end Vnt.Vnx
