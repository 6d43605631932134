import Vnt.Parse.Bounded

/-!
# `Parse.Chain` — a source for every height

The statement `a.b.b … .b=1` assigns to a member of a member of … of `a`. Its target is parsed by the loop that does
not count its steps, so it is accepted for every number of them, and its tree has a level for each.
-/

namespace Vnt.Parse

open Lib Prog

/-! ## Its tokens -/

/-- The characters from the index on. -/
def Lexer.rest (lx : Lexer) : List Char := lx.source.chars.drop lx.current

/-- What the parser looks at in a token. -/
def Token.kind (t : Token) : TokenType × List Char := (t.type, t.text)

/-- The next token is `kind`, and the characters `r` are left after it. -/
def Gives (lx : Lexer) (kind : TokenType × List Char) (r : List Char) : Prop :=
  Sat lexerNext lx fun t lx' => t.kind = kind ∧ lx'.InBounds ∧ lx'.rest = r

variable {lx : Lexer} {c : Char} {r : List Char}

theorem read_rest (h : lx.rest = c :: r) : lx.read lx.current = .ok c := by
  have hc : lx.source.chars[lx.current]? = some c := by
    have h0 : (lx.source.chars.drop lx.current)[0]? = some c := by
      show lx.rest[0]? = some c
      rw [h]
      rfl
    simpa using h0
  rw [Lexer.read, hc]

theorem read_rest_nil (hin : lx.InBounds) (h : lx.rest = []) : lx.read lx.current = .ok nul := by
  have hle : lx.source.chars.length ≤ lx.current := List.drop_eq_nil_iff.mp h
  rw [Lexer.read, List.getElem?_eq_none hle]
  simp [Nat.le_antisymm hin hle]

theorem rest_step (h : lx.rest = c :: r) : (lx.step c).rest = r := by
  rw [Lexer.rest, Lexer.step_source, Lexer.step_current, ← List.tail_drop]
  show lx.rest.tail = r
  rw [h]
  rfl

/-- The character at the index, the terminator at the end. -/
theorem peek_rest (hin : lx.InBounds) : Sat peek lx fun d lx' => lx' = lx ∧ d = lx.rest.headD nul := by
  refine (peek_sat hin).mono ?_
  rintro d lx' ⟨rfl, hd⟩
  refine ⟨rfl, ?_⟩
  cases hrest : lx'.rest with
  | nil => exact Except.ok.inj (hd.symm.trans (read_rest_nil hin hrest))
  | cons c r => exact Except.ok.inj (hd.symm.trans (read_rest hrest))

theorem skipWhitespace_rest {n : Nat} (hin : lx.InBounds) (hspace : isSpace (lx.rest.headD nul) = false)
    (hhash : lx.rest.headD nul ≠ '#') : Sat (skipWhitespace (n + 1)) lx fun _ lx' => lx' = lx := by
  rw [skipWhitespace]
  refine (peek_rest hin).seq ?_
  rintro d lx' ⟨rfl, rfl⟩
  refine Sat.ite (fun h => absurd h (by rw [hspace]; simp)) fun _ => ?_
  exact Sat.ite (fun h => absurd h hhash) fun _ => Sat.pure rfl

theorem advanceWhile_rest {test : Char → Bool} {n : Nat} (hin : lx.InBounds) (h : test (lx.rest.headD nul) = false) :
    Sat (advanceWhile test (n + 1)) lx fun _ lx' => lx' = lx := by
  rw [advanceWhile]
  refine (peek_rest hin).seq ?_
  rintro d lx' ⟨rfl, rfl⟩
  exact Sat.ite (fun ht => absurd ht (by rw [h]; simp)) fun _ => Sat.pure rfl

/-- A token of the single character `c`: after its first character the scanner stops where it is. -/
theorem gives_single {type : TokenType} (hin : lx.InBounds) (hrest : lx.rest = c :: r) (hspace : isSpace c = false)
    (hhash : c ≠ '#') (hnul : c ≠ nul)
    (hscan : ∀ n start lx₁, lx₁.InBounds → lx₁.rest = r → Sat (
      if isNameStart c then identifier (n + 1) start
      else if isDigit c then number (n + 1) c start
      else if c = '"' then string (n + 1) start
      else symbol c start) lx₁ fun t lx' => lx' = lx₁ ∧
        t.kind = (type, (lx₁.source.chars.drop start).take (lx₁.current - start))) :
    Gives lx (type, [c]) r := by
  have hhead : lx.rest.headD nul = c := by rw [hrest]; rfl
  refine (skipWhitespace_rest hin (by rw [hhead]; exact hspace) (by rw [hhead]; exact hhash)).seq ?_
  rintro _ lx rfl
  show Sat (scanToken _ _) lx.markStart _
  have hrest' : lx.markStart.rest = c :: r := hrest
  have hread := read_rest hrest'
  obtain ⟨hmoves, hcur⟩ := step_moves hread hnul
  refine (advance_sat hread).seq ?_
  rintro _ _ ⟨rfl, rfl⟩
  refine Sat.ite (fun h => absurd h hnul) fun _ => ?_
  refine (hscan _ lx.markStart.current _ hmoves.inBounds (rest_step hrest')).mono ?_
  rintro t _ ⟨rfl, ht⟩
  refine ⟨?_, hmoves.inBounds, rest_step hrest'⟩
  rw [ht, hcur, hmoves.source, Nat.add_sub_cancel_left]
  show (type, lx.markStart.rest.take 1) = _
  rw [hrest']
  rfl

theorem makeToken_kind (type : TokenType) (start : Nat) (lx : Lexer) : Sat (makeToken type start) lx fun t lx' =>
    lx' = lx ∧ t.kind = (type, (lx.source.chars.drop start).take (lx.current - start)) := ⟨_, lx, rfl, rfl, rfl⟩

theorem gives_dot (hin : lx.InBounds) (hrest : lx.rest = '.' :: r) : Gives lx (.dot, ['.']) r :=
  gives_single hin hrest (by decide) (by decide) (by decide) fun _ start lx₁ _ _ => makeToken_kind .dot start lx₁

theorem gives_name (hin : lx.InBounds) (hrest : lx.rest = c :: r) (hc : isNameStart c = true)
    (hspace : isSpace c = false) (hhash : c ≠ '#') (hnul : c ≠ nul) (hr : isNameChar (r.headD nul) = false) :
    Gives lx (.identifier, [c]) r := by
  refine gives_single hin hrest hspace hhash hnul fun n start lx₁ hin₁ hrest₁ => ?_
  rw [if_pos hc]
  refine (advanceWhile_rest hin₁ (by rw [hrest₁]; exact hr)).seq ?_
  rintro _ _ rfl
  exact makeToken_kind .identifier start _

theorem gives_equals (hin : lx.InBounds) (hrest : lx.rest = ['=', '1']) : Gives lx (.equals, ['=']) ['1'] := by
  refine gives_single hin hrest (by decide) (by decide) (by decide) fun n start lx₁ hin₁ hrest₁ => ?_
  refine (peek_rest hin₁).seq ?_
  rintro d _ ⟨rfl, hd⟩
  refine Sat.ite (fun h => absurd h ?_) fun _ => makeToken_kind .equals start _
  rw [hd, hrest₁]
  decide

theorem gives_one (hin : lx.InBounds) (hrest : lx.rest = ['1']) : Gives lx (.integer, ['1']) [] := by
  refine gives_single hin hrest (by decide) (by decide) (by decide) fun n start lx₁ hin₁ hrest₁ => ?_
  refine (peek_rest hin₁).seq ?_
  rintro d _ ⟨rfl, hd⟩
  rw [hrest₁] at hd
  refine Sat.ite (fun h => absurd h (by rw [hd]; decide)) fun _ => ?_
  refine (advanceWhile_rest hin₁ (by rw [hrest₁]; decide)).seq ?_
  rintro _ lx₁ rfl
  have hfraction : Sat fractionFollows lx₁ fun b lx' => lx' = lx₁ ∧ b = false := by
    refine (peek_rest hin₁).seq ?_
    rintro e _ ⟨rfl, he⟩
    rw [hrest₁] at he
    exact Sat.ite (fun h => absurd h (by rw [he]; decide)) fun _ => Sat.pure ⟨rfl, rfl⟩
  refine hfraction.seq ?_
  rintro _ _ ⟨rfl, rfl⟩
  exact makeToken_kind .integer start _

theorem gives_eof (hin : lx.InBounds) (hrest : lx.rest = []) : ∃ t, lx.tokens = [t] ∧ t.type = .eof := by
  obtain ⟨t, lx', hnext, ⟨-, hread⟩, htoks⟩ := lexerNext_tokens hin
  have heof : Sat lexerNext lx fun t _ => t.type = .eof := by
    have hhead : lx.rest.headD nul = nul := by rw [hrest]; rfl
    refine (skipWhitespace_rest hin (by rw [hhead]; decide) (by rw [hhead]; decide)).seq ?_
    rintro _ lx rfl
    show Sat (scanToken _ _) lx.markStart _
    refine (advance_sat (@read_rest_nil lx.markStart hin hrest)).seq ?_
    rintro _ _ ⟨rfl, rfl⟩
    refine Sat.ite (fun _ => ?_) fun h => absurd rfl h
    exact (makeToken_sat .eof _ _).mono fun t _ ht => ht.2
  obtain ⟨t', lx'', hnext', ht'⟩ := heof
  obtain ⟨rfl, rfl⟩ := Prod.mk.inj (Except.ok.inj (hnext.symm.trans hnext'))
  rcases hread with ⟨-, hfin⟩ | ⟨hne, -⟩
  · exact ⟨t, by rw [htoks, Lexer.tokens_finished hfin], ht'⟩
  · exact absurd ht' hne

theorem Gives.tokens {kind : TokenType × List Char} (hin : lx.InBounds) (h : Gives lx kind r) :
    ∃ (t : Token) (lx' : Lexer), lx.tokens = t :: lx'.tokens ∧ t.kind = kind ∧ lx'.InBounds ∧ lx'.rest = r := by
  obtain ⟨t, lx', hnext, -, htoks⟩ := lexerNext_tokens hin
  obtain ⟨t', lx'', hnext', hkind, hin', hrest⟩ := h
  obtain ⟨rfl, rfl⟩ := Prod.mk.inj (Except.ok.inj (hnext.symm.trans hnext'))
  exact ⟨t, lx', htoks, hkind, hin', hrest⟩

/-- `n` times `.b`. -/
def members : Nat → List Char
  | 0 => []
  | n + 1 => '.' :: 'b' :: members n

theorem nul_not_mem_members (n : Nat) : nul ∉ members n := by
  induction n with
  | zero => simp [members]
  | succ n ih =>
      simp only [members, List.mem_cons, not_or]
      exact ⟨by decide, by decide, ih⟩

/-- The source `a.b … .b=1` with `n` members. -/
def chainSource (n : Nat) : Source where
  chars := 'a' :: (members n ++ ['=', '1'])
  noNul := by
    simp only [List.mem_cons, List.mem_append, not_or, List.not_mem_nil, not_false_eq_true, and_true]
    exact ⟨by decide, nul_not_mem_members n, by decide, by decide⟩

theorem length_chainSource (n : Nat) : n + 3 ≤ (chainSource n).chars.length := by
  have hmembers : n ≤ (members n).length := by
    induction n with
    | zero => exact Nat.zero_le _
    | succ n ih =>
        simp only [members, List.length_cons]
        omega
  simp only [chainSource, List.length_cons, List.length_append, List.length_nil]
  omega

/-- The kinds of the tokens of `n` members. -/
def memberKinds : Nat → List (TokenType × List Char)
  | 0 => []
  | n + 1 => (.dot, ['.']) :: (.identifier, ['b']) :: memberKinds n

/-- The end of the statement: `=`, `1` and the end of file. -/
def IsEnd (ts : List Token) : Prop := ∃ equals one eof, ts = [equals, one, eof] ∧ equals.type = .equals ∧
  one.kind = (.integer, ['1']) ∧ eof.type = .eof

theorem tokens_end (hin : lx.InBounds) (hrest : lx.rest = ['=', '1']) : IsEnd lx.tokens := by
  obtain ⟨t₁, lx₁, htoks₁, hk₁, hin₁, hrest₁⟩ := (gives_equals hin hrest).tokens hin
  obtain ⟨t₂, lx₂, htoks₂, hk₂, hin₂, hrest₂⟩ := (gives_one hin₁ hrest₁).tokens hin₁
  obtain ⟨t₃, htoks₃, ht₃⟩ := gives_eof hin₂ hrest₂
  exact ⟨t₁, t₂, t₃, by rw [htoks₁, htoks₂, htoks₃], congrArg Prod.fst hk₁, hk₂, ht₃⟩

theorem tokens_members {n : Nat} (hin : lx.InBounds) (hrest : lx.rest = members n ++ ['=', '1']) :
    ∃ ts last, lx.tokens = ts ++ last ∧ ts.map Token.kind = memberKinds n ∧ IsEnd last := by
  induction n generalizing lx with
  | zero => exact ⟨[], lx.tokens, rfl, rfl, tokens_end hin hrest⟩
  | succ n ih =>
      obtain ⟨t₁, lx₁, htoks₁, hk₁, hin₁, hrest₁⟩ := (gives_dot hin hrest).tokens hin
      have hnext : isNameChar ((members n ++ ['=', '1']).headD nul) = false := by
        cases n <;> rfl
      obtain ⟨t₂, lx₂, htoks₂, hk₂, hin₂, hrest₂⟩ :=
        (gives_name hin₁ hrest₁ (by decide) (by decide) (by decide) (by decide) hnext).tokens hin₁
      obtain ⟨ts, last, htoks, hkinds, hlast⟩ := ih hin₂ hrest₂
      refine ⟨t₁ :: t₂ :: ts, last, by rw [htoks₁, htoks₂, htoks]; rfl, ?_, hlast⟩
      simp [hk₁, hk₂, hkinds, memberKinds]

theorem tokens_chainSource (n : Nat) : ∃ name ts last, (chainSource n).tokens = name :: (ts ++ last) ∧
    name.kind = (.identifier, ['a']) ∧ ts.map Token.kind = memberKinds n ∧ IsEnd last := by
  have hin : (lexerInit (chainSource n)).InBounds := Nat.zero_le _
  have hrest : (lexerInit (chainSource n)).rest = 'a' :: (members n ++ ['=', '1']) := rfl
  have hnext : isNameChar ((members n ++ ['=', '1']).headD nul) = false := by
    cases n <;> rfl
  obtain ⟨t, lx, htoks, hk, hin', hrest'⟩ :=
    (gives_name hin hrest (by decide) (by decide) (by decide) (by decide) hnext).tokens hin
  obtain ⟨ts, last, htoks', hkinds, hlast⟩ := tokens_members hin' hrest'
  exact ⟨t, ts, last, by rw [Source.tokens, htoks, htoks'], hk, hkinds, hlast⟩

/-! ## Its tree -/

/-- The parser stands before the tokens `ts` at nesting `d`, and no limit was exceeded. -/
structure Before (p : Parser) (d : Nat) (ts : List Token) : Prop where
  ok : p.Ok
  calm : p.nestingFailed = false
  depth : p.nestingDepth = d
  toks : p.toks = ts

namespace Before

variable {p : Parser} {d : Nat} {t t' : Token} {ts : List Token}

theorem current (h : Before p d (t :: ts)) : p.current = t := (List.cons.inj h.toks).1

theorem advance {α : Type} {Q : α → Parser → Prop} {f : Unit → ParserM α} (h : Before p d (t :: t' :: ts))
    (ht : t.type ≠ .eof) (hf : ∀ p', Before p' d (t' :: ts) → Sat (f ()) p' Q) : Sat (parserAdvance >>= f) p Q := by
  obtain ⟨_, p', hrun, he⟩ := parserAdvance_eats h.ok (h.current ▸ ht)
  refine Sat.bind ⟨_, p', hrun, hf p' ⟨he.ok, (parserAdvance_calm hrun).trans h.calm, he.depth.trans h.depth, ?_⟩⟩
  have htoks := he.toks
  rw [h.toks] at htoks
  exact (List.cons.inj htoks).2.symm

theorem enter {α : Type} {Q : α → Parser → Prop} {context : String} {f : Bool → ParserM α} (h : Before p d ts)
    (hd : d < vntParserMaxNesting) (hf : Before p.enter (d + 1) ts → Sat (f true) p.enter Q) :
    Sat (parserEnterNesting context >>= f) p Q := by
  have hrun : parserEnterNesting context p = .ok (true, p.enter) := by
    have hlt : ¬ p.nestingDepth ≥ vntParserMaxNesting := by rw [h.depth]; omega
    show (if p.nestingFailed then (pure false : ParserM Bool) else _) p = _
    rw [h.calm, if_neg (by simp), if_neg hlt]
    rfl
  have hdepth : p.enter.nestingDepth = d + 1 := congrArg (· + 1) h.depth
  exact Sat.bind ⟨_, _, hrun, hf ⟨⟨h.ok.ready, by rw [hdepth]; exact hd, h.ok.count⟩, h.calm, hdepth, h.toks⟩⟩

theorem leave (h : Before p (d + 1) ts) : Before p.leave d ts := by
  have hdepth : p.leave.nestingDepth = d := by
    show p.nestingDepth - 1 = d
    rw [h.depth]
    rfl
  refine ⟨⟨h.ok.ready, ?_, h.ok.count⟩, h.calm, hdepth, h.toks⟩
  have := h.ok.depth
  show p.nestingDepth - 1 ≤ _
  omega

end Before

variable {p : Parser} {d : Nat} {one eof : Token}

/-- The literal `1`, which ends the source. -/
def oneNode : AstNode := .leaf (.integerLiteral (Int64.ofNat 1)) .null

/-- A parse function that reads the last literal. -/
def ReadsOne (d : Nat) (one eof : Token) (level : ParserM AstNode) : Prop :=
  ∀ p, Before p d [one, eof] → Sat level p fun a p' => a = oneNode ∧ Before p' d [eof]

theorem parseUnary_one (strtod : List Char → Double) (expr : ParserM AstNode) {n : Nat}
    (hone : one.kind = (.integer, ['1'])) (heof : eof.type = .eof) :
    ReadsOne d one eof (parseUnary strtod expr (n + 2)) := by
  intro p h
  have htype : p.current.type = .integer := by rw [h.current]; exact congrArg Prod.fst hone
  have htext : p.current.text = ['1'] := by rw [h.current]; exact congrArg Prod.snd hone
  rw [parseUnary]
  refine sat_currentToken ?_
  rw [htype]
  have hprimary : Sat (parsePrimary strtod expr (n + 1)) p fun a p' => a = oneNode ∧ Before p' d [eof] := by
    refine sat_currentToken ?_
    rw [htype]
    show Sat (parseInteger p.current) p _
    unfold parseInteger
    rw [htext]
    refine Sat.ite (fun hlong => absurd hlong (by decide)) fun _ => ?_
    have hvalue : magnitude ['1'] = some 1 := by decide
    rw [hvalue]
    refine Sat.ite (fun _ => ?_) fun hbig => absurd (by decide) hbig
    exact h.advance (by rw [← h.current, htype]; decide) fun p' h' => Sat.pure ⟨rfl, h'⟩
  refine hprimary.seq ?_
  rintro _ p' ⟨rfl, h'⟩
  have hcur : p'.current.type = .eof := by rw [h'.current]; exact heof
  refine Sat.ite (fun hnull => absurd hnull (by simp [oneNode, isNull])) fun _ => ?_
  rw [postfixSteps]
  refine sat_check (fun hopen => absurd (hcur.symm.trans hopen) (by decide)) fun _ => ?_
  refine sat_check (fun hdot => absurd (hcur.symm.trans hdot) (by decide)) fun _ => Sat.pure ⟨rfl, h'⟩

theorem parseBinary_one {operators : TokenType → Option BinaryOperator} (hops : operators .eof = none)
    {operand : ParserM AstNode} {n : Nat} (heof : eof.type = .eof) (hoperand : ReadsOne d one eof operand) :
    ReadsOne d one eof (parseBinary operators operand (n + 1)) := by
  intro p h
  refine (hoperand p h).seq ?_
  rintro _ p' ⟨rfl, h'⟩
  refine Sat.ite (fun hnull => absurd hnull (by simp [oneNode, isNull])) fun _ => ?_
  rw [binarySteps]
  refine sat_currentToken ?_
  have hcur : operators p'.current.type = none := by rw [h'.current, heof]; exact hops
  rw [hcur]
  exact Sat.pure ⟨rfl, h'⟩

theorem parseExpression_one (strtod : List Char → Double) {n : Nat} (hd : d < vntParserMaxNesting)
    (hone : one.kind = (.integer, ['1'])) (heof : eof.type = .eof) :
    ReadsOne d one eof (parseExpression strtod (n + 3)) := by
  intro p h
  refine Sat.bind (Sat.modify ?_)
  generalize hp₁ : (if p.expressionDepth = 0 then { p with expressionOperatorCount := 0 } else p : Parser) = p₁
  have h₁ : Before p₁ d [one, eof] := by
    subst hp₁
    split_ifs
    · exact ⟨⟨h.ok.ready, h.ok.depth, Nat.zero_le _⟩, h.calm, h.depth, h.toks⟩
    · exact h
  refine h₁.enter hd fun h₂ => ?_
  refine Sat.bind (Sat.modify ?_)
  have h₃ : Before { p₁.enter with expressionDepth := p₁.enter.expressionDepth + 1 } (d + 1) [one, eof] :=
    ⟨⟨h₂.ok.ready, h₂.ok.depth, h₂.ok.count⟩, h₂.calm, h₂.depth, h₂.toks⟩
  have hor : ReadsOne (d + 1) one eof (parseOr strtod (parseExpression strtod (n + 2)) (n + 2)) := by
    have hunary := @parseUnary_one (d + 1) one eof strtod (parseExpression strtod (n + 2)) n hone heof
    exact parseBinary_one rfl heof (parseBinary_one rfl heof (parseBinary_one rfl heof (parseBinary_one rfl heof
      (parseBinary_one rfl heof (parseBinary_one rfl heof hunary)))))
  refine (hor _ h₃).seq ?_
  rintro _ p₄ ⟨rfl, h₄⟩
  refine Sat.bind (Sat.modify (Sat.bind (Sat.modify (Sat.bind (Sat.get ?_)))))
  refine Sat.ite (fun hfailed => absurd (h₄.calm.symm.trans hfailed) (by simp)) fun _ => Sat.pure ⟨rfl, ?_⟩
  have h₅ : Before { p₄ with expressionDepth := p₄.expressionDepth - 1 } (d + 1) [eof] :=
    ⟨⟨h₄.ok.ready, h₄.ok.depth, h₄.ok.count⟩, h₄.calm, h₄.depth, h₄.toks⟩
  exact h₅.leave

/-- `target` with `n` members `b`. -/
def memberNode : Nat → AstNode → AstNode
  | 0, target => target
  | n + 1, target => memberNode n (.one (.memberExpression "b") target .null)

theorem height_memberNode (n : Nat) (target : AstNode) : target.height + n ≤ (memberNode n target).height := by
  induction n generalizing target with
  | zero => exact Nat.le_refl _
  | succ n ih =>
      have hle := ih (.one (.memberExpression "b") target .null)
      simp only [AstNode.height] at hle
      show _ ≤ (memberNode n (.one (.memberExpression "b") target .null)).height
      omega

theorem memberNode_succ (n : Nat) (target : AstNode) : ∃ object,
    memberNode (n + 1) target = .one (.memberExpression "b") object .null := by
  induction n generalizing target with
  | zero => exact ⟨target, rfl⟩
  | succ n ih => exact ih _

/-- The members of a target are read one by one, whatever their number. -/
theorem targetSteps_members (expr : ParserM AstNode) {n m : Nat} {ts last : List Token}
    (hts : ts.map Token.kind = memberKinds n) (hlast : IsEnd last) (hm : n < m) {target : AstNode}
    (h : Before p d (ts ++ last)) : Sat (targetSteps expr m target) p fun a p' =>
      a = memberNode n target ∧ Before p' d last := by
  induction n generalizing ts m target p with
  | zero =>
      obtain rfl := List.map_eq_nil_iff.mp hts
      obtain ⟨m, rfl⟩ : ∃ k, m = k + 1 := ⟨m - 1, by omega⟩
      obtain ⟨equals, one, eof, rfl, hequals, -⟩ := hlast
      have hcur : p.current.type = .equals := by rw [h.current]; exact hequals
      rw [targetSteps]
      refine sat_check (fun hopen => absurd (hcur.symm.trans hopen) (by decide)) fun _ => ?_
      exact sat_check (fun hdot => absurd (hcur.symm.trans hdot) (by decide)) fun _ => Sat.pure ⟨rfl, h⟩
  | succ n ih =>
      obtain ⟨m, rfl⟩ : ∃ k, m = k + 1 := ⟨m - 1, by omega⟩
      obtain ⟨dot, ts, rfl, hdot, hts⟩ := List.map_eq_cons_iff.mp hts
      obtain ⟨name, ts, rfl, hname, hts⟩ := List.map_eq_cons_iff.mp hts
      have hdot' : p.current.type = .dot := by rw [h.current]; exact congrArg Prod.fst hdot
      obtain ⟨t, rest, hrest⟩ : ∃ t rest, ts ++ last = t :: rest := by
        obtain ⟨equals, one, eof, rfl, -⟩ := hlast
        cases ts with
        | nil => exact ⟨_, _, rfl⟩
        | cons t ts => exact ⟨_, _, rfl⟩
      rw [targetSteps]
      refine sat_check (fun hopen => absurd (hdot'.symm.trans hopen) (by decide)) fun _ => ?_
      refine sat_check (fun _ => ?_) fun hno => absurd hdot' hno
      refine Before.advance h (by rw [← h.current, hdot']; decide) fun p₁ h₁ => ?_
      have hname' : p₁.current.type = .identifier := by rw [h₁.current]; exact congrArg Prod.fst hname
      have htext : parserTokenToString p₁.current = "b" := by
        have hb : name.text = ['b'] := congrArg Prod.snd hname
        rw [h₁.current, parserTokenToString, hb]
      refine sat_check (fun _ => ?_) fun hno => absurd hname' hno
      refine sat_currentToken ?_
      have h₁' : Before p₁ d (name :: t :: rest) := hrest ▸ h₁
      refine h₁'.advance (by rw [← h₁.current, hname']; decide) fun p₂ h₂ => ?_
      rw [htext]
      exact ih hts (by omega) (hrest ▸ h₂)

/-- A name that is no keyword. -/
theorem currentIs_other {α : Type} {Q : α → Parser → Prop} {f : Bool → ParserM α} {text : String} {name : List Char}
    (hname : p.current.text = name) (hne : name ≠ text.toList) (hf : Sat (f false) p Q) :
    Sat (currentIs text >>= f) p Q := by
  show Sat (f (parserIsToken p.current text)) p Q
  have hno : parserIsToken p.current text = false := by
    rw [parserIsToken, hname]
    simp [hne]
  rw [hno]
  exact hf

/-- The tree of the statement. -/
def chainNode (n : Nat) : AstNode := .two .assignment (memberNode (n + 1) (.leaf (.variable "a") .null)) oneNode .null

theorem parseStatement_chain (strtod : List Char → Double) {n m : Nat} (hm : n + 2 < m) {name : Token}
    {ts last : List Token} (hname : name.kind = (.identifier, ['a'])) (hts : ts.map Token.kind = memberKinds (n + 1))
    (hlast : IsEnd last) (h : Before p 0 (name :: (ts ++ last))) :
    Sat (parseStatement strtod (m + 1)) p fun a p' => a = chainNode n ∧ p'.current.type = .eof := by
  obtain ⟨m, rfl⟩ : ∃ k, m = k + 3 := ⟨m - 3, by omega⟩
  obtain ⟨t, rest, hrest⟩ : ∃ t rest, ts ++ last = t :: rest := by
    obtain ⟨dot, ts, rfl, -⟩ := List.map_eq_cons_iff.mp hts
    exact ⟨_, _, rfl⟩
  refine h.enter (by decide) fun h₁ => ?_
  have htype : p.enter.current.type = .identifier := by rw [h₁.current]; exact congrArg Prod.fst hname
  have htext : p.enter.current.text = ['a'] := by rw [h₁.current]; exact congrArg Prod.snd hname
  have hbody : Sat (parseStatementBody (parseStatement strtod (m + 3)) (parseExpression strtod (m + 3)) (m + 3)) p.enter
      fun a p' => a = chainNode n ∧ ∃ eof : Token, eof.type = .eof ∧ Before p' 1 [eof] := by
    unfold parseStatementBody
    iterate 12 refine currentIs_other htext (by decide) ?_
    refine sat_check (fun hstar => absurd (htype.symm.trans hstar) (by decide)) fun _ => ?_
    refine sat_check (fun _ => ?_) fun hno => absurd htype hno
    refine sat_currentToken ?_
    have h₁' : Before p.enter 1 (name :: t :: rest) := hrest ▸ h₁
    refine h₁'.advance (by rw [← h₁.current, htype]; decide) fun p₂ h₂ => ?_
    have hdot : p₂.current.type = .dot := by
      obtain ⟨dot, ts, rfl, hk, -⟩ := List.map_eq_cons_iff.mp hts
      obtain ⟨rfl, -⟩ := List.cons.inj hrest
      rw [h₂.current]
      exact congrArg Prod.fst hk
    refine sat_check (fun hparen => absurd (hdot.symm.trans hparen) (by decide)) fun _ => ?_
    have hstr : parserTokenToString p.enter.current = "a" := by
      rw [parserTokenToString, htext]
    rw [hstr]
    refine (targetSteps_members _ hts hlast (by omega) (hrest ▸ h₂)).seq ?_
    rintro _ p₃ ⟨rfl, h₃⟩
    obtain ⟨object, hobject⟩ := memberNode_succ n (.leaf (.variable "a") .null)
    have hnode : memberNode (n + 1) (.leaf (.variable "a") .null) ≠ .null := by
      rw [hobject]
      simp
    refine sat_null (fun hnull => absurd hnull hnode) fun _ => ?_
    obtain ⟨equals, one, eof, rfl, hequals, hone, heof⟩ := hlast
    have hcur : p₃.current.type = .equals := by rw [h₃.current]; exact hequals
    refine sat_check (fun hparen => absurd (hcur.symm.trans hparen) (by decide)) fun _ => ?_
    refine sat_currentToken ?_
    rw [hcur]
    refine h₃.advance (by rw [hequals]; decide) fun p₄ h₄ => ?_
    refine (parseExpression_one strtod (by decide) hone heof p₄ h₄).seq ?_
    rintro _ p₅ ⟨rfl, h₅⟩
    refine sat_null (fun hnull => absurd hnull (by simp [oneNode])) fun _ => ?_
    refine sat_null (fun hnull => absurd hnull (by simp [oneNode, compoundValue])) fun _ => ?_
    refine Sat.pure ⟨?_, eof, heof, h₅⟩
    rw [chainNode, hobject]
    rfl
  refine hbody.seq ?_
  rintro _ p₂ ⟨rfl, eof, heof, h₂⟩
  refine Sat.bind (Sat.get (Sat.bind (Sat.modify (Sat.pure ⟨?_, ?_⟩))))
  · rw [h₂.calm]
    rfl
  · show p₂.current.type = .eof
    rw [h₂.current]
    exact heof

/-- The source with `n + 1` members is accepted, with a level for each of them. -/
theorem parseSource_chain (strtod : List Char → Double) (n : Nat) {fuel : Nat} (forCounter : Nat)
    (hfuel : (chainSource (n + 1)).chars.length + 1 < fuel) :
    parseSource strtod fuel (chainSource (n + 1)) forCounter = .ok (.one .program (chainNode n) .null) := by
  obtain ⟨p, hinit, hok, -, hdepth, hcalm, htoks⟩ := parserInit_ok (chainSource (n + 1)) forCounter
  obtain ⟨name, ts, last, hsource, hname, hts, hlast⟩ := tokens_chainSource (n + 1)
  have h : Before p 0 (name :: (ts ++ last)) := ⟨hok, hcalm, hdepth, htoks.trans hsource⟩
  have hm : n + 3 < fuel := by
    have := length_chainSource (n + 1)
    omega
  obtain ⟨m, rfl⟩ : ∃ k, fuel = k + 2 := ⟨fuel - 2, by omega⟩
  have hrun : Sat (parserParse strtod (m + 2)) p fun program _ => program = .one .program (chainNode n) .null := by
    have hsteps : Sat (programSteps (parseStatement strtod (m + 2)) (m + 2) .null) p fun r _ =>
        r = some (chainNode n) := by
      have hfirst : p.current.type ≠ .eof := by
        rw [h.current, show name.type = .identifier from congrArg Prod.fst hname]
        decide
      refine sat_check (fun heof => absurd heof hfirst) fun _ => ?_
      refine (parseStatement_chain strtod (by omega) hname hts hlast h).seq ?_
      rintro _ p' ⟨rfl, heof⟩
      refine sat_null (fun hnull => absurd hnull (by simp [chainNode])) fun _ => ?_
      exact sat_check (fun _ => Sat.pure rfl) fun hno => absurd heof hno
    refine hsteps.seq ?_
    rintro _ p' rfl
    exact Sat.pure rfl
  obtain ⟨program, p', hparse, rfl⟩ := hrun
  rw [parseSource, hinit]
  show (parserParse strtod (m + 2) p).map (·.1) = _
  rw [hparse]
  rfl

theorem height_chainNode (n : Nat) : n < (chainNode n).height := by
  have hle := height_memberNode (n + 1) (.leaf (.variable "a") .null)
  simp only [chainNode, AstNode.height] at hle ⊢
  omega

/-- **No constant bounds the height of accepted programs.** -/
theorem height_unbounded : ¬ ∃ limit : Nat, ∀ (strtod : List Char → Double) (source : Source) (forCounter fuel : Nat)
    (program : AstNode), source.chars.length + 1 < fuel → parseSource strtod fuel source forCounter = .ok program →
      program.height ≤ limit := by
  rintro ⟨limit, hlimit⟩
  have hparse := parseSource_chain (fun _ => ⟨0⟩) limit 0 (Nat.lt_succ_self _)
  have hle := hlimit _ _ _ _ _ (Nat.lt_succ_self _) hparse
  have hlt := height_chainNode limit
  simp only [AstNode.height] at hle
  omega

/-! ## The bound -/

/-- The height of every program whose assignment targets have no more steps than an expression has operators. -/
def heightLimit : Nat := 2 * vntParserMaxExpressionOperators + 2 * vntParserMaxNesting + 3

/-- **Bounded height.** The program is parsed and its height is bounded by the two limits of the parser, in every
    source where no assignment target has more steps than an expression may have operators. -/
theorem parseSource_height (strtod : List Char → Double) (source : Source) (forCounter fuel : Nat)
    (hchains : ChainsAtMost vntParserMaxExpressionOperators source.tokens) (hfuel : source.chars.length + 1 < fuel) :
    ∃ program, parseSource strtod fuel source forCounter = .ok program ∧ program.height ≤ heightLimit := by
  obtain ⟨program, hparse, hheight⟩ := parseSource_ok strtod forCounter hchains hfuel
  refine ⟨program, hparse, ?_⟩
  unfold statementLimit at hheight
  unfold heightLimit
  omega

theorem chainSource_two_height :
    ChainsAtMost vntParserMaxExpressionOperators (chainSource 2).tokens ∧ (chainSource 2).chars.length + 1 < 10 ∧
    ∃ program, parseSource (fun _ => ⟨0⟩) 10 (chainSource 2) 0 = .ok program ∧ program.height ≤ heightLimit := by
  have hchains : ChainsAtMost vntParserMaxExpressionOperators (chainSource 2).tokens := by
    refine ChainsAtMost.of_length.mono (Nat.le_trans (Source.length_tokens _) ?_)
    decide
  exact ⟨hchains, by decide, parseSource_height _ _ _ _ hchains (by decide)⟩

end Vnt.Parse
