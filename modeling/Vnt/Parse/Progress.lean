import Vnt.Parse.Statements
import Vnt.Parse.Tokens

/-!
# `Parse.Progress` — what a step of the parser does to its input

`Parser.toks` is the input the parser still has: its lookahead and the tokens the lexer has yet to give. A state
is `Ok` when the lexer stands where the lookahead says it must and no limit is exceeded. `Eats p w p'` is what
every parse function guarantees, whatever it returns: it has taken the tokens `w` from the front of the input,
the state is `Ok` again and the nesting is what it was. The rules `Sat.advance` and so on turn each primitive
into such a step; the lookahead must not be the end of file when the parser advances, which is the one condition
that keeps the lexer inside its buffer.
-/

namespace Vnt.Parse

open Lib Prog

/-! ## States -/

namespace Parser

/-- The input from the lookahead on. -/
def toks (p : Parser) : List Token := p.current :: p.lexer.tokens

/-- After the end of file the lexer is finished, before it the lexer is inside its buffer. -/
def Ready (p : Parser) : Prop := if p.current.type = .eof then p.lexer.Finished else p.lexer.InBounds

/-- A state the parser can be in. -/
structure Ok (p : Parser) : Prop where
  ready : p.Ready
  depth : p.nestingDepth ≤ vntParserMaxNesting
  count : p.expressionOperatorCount ≤ vntParserMaxExpressionOperators

end Parser

/-- From `p` to `p'` the tokens `w` were taken, and the nesting is the same. Inside an expression the count of its
    operators does not fall. -/
structure Eats (p : Parser) (w : List Token) (p' : Parser) : Prop where
  ok : p'.Ok
  toks : p.toks = w ++ p'.toks
  depth : p'.nestingDepth = p.nestingDepth
  exprDepth : p'.expressionDepth = p.expressionDepth
  count : 0 < p.expressionDepth → p.expressionOperatorCount ≤ p'.expressionOperatorCount

namespace Eats

variable {p p₁ p₂ : Parser} {w w₁ w₂ : List Token}

theorem refl (h : p.Ok) : Eats p [] p := ⟨h, rfl, rfl, rfl, fun _ => Nat.le_refl _⟩

theorem trans (h₁ : Eats p w₁ p₁) (h₂ : Eats p₁ w₂ p₂) : Eats p (w₁ ++ w₂) p₂ where
  ok := h₂.ok
  toks := by rw [h₁.toks, h₂.toks, List.append_assoc]
  depth := h₂.depth.trans h₁.depth
  exprDepth := h₂.exprDepth.trans h₁.exprDepth
  count := fun h => Nat.le_trans (h₁.count h) (h₂.count (h₁.exprDepth ▸ h))

theorem length (h : Eats p w p₁) : p.toks.length = w.length + p₁.toks.length := by
  rw [h.toks, List.length_append]

theorem length_le (h : Eats p w p₁) : p₁.toks.length ≤ p.toks.length := by
  rw [h.length]
  exact Nat.le_add_left _ _

/-- Messages are no part of the input. -/
theorem report (h : Eats p w p₁) (d : List String) : Eats p w { p₁ with diagnostics := d } :=
  ⟨⟨h.ok.ready, h.ok.depth, h.ok.count⟩, h.toks, h.depth, h.exprDepth, h.count⟩

end Eats

/-! ## Rules for the primitives -/

variable {α : Type} {p : Parser} {Q : α → Parser → Prop}

theorem parserAdvance_eats (h : p.Ok) (heof : p.current.type ≠ .eof) :
    Sat parserAdvance p fun _ p' => Eats p [p.current] p' := by
  have hin : p.lexer.InBounds := by
    have hr := h.ready
    rwa [Parser.Ready, if_neg heof] at hr
  obtain ⟨t, lx', hnext, ⟨-, hread⟩, htoks⟩ := lexerNext_tokens hin
  refine ⟨(), { p with previous := p.current, current := t, lexer := lx' }, ?_, ⟨?_, h.depth, h.count⟩, ?_, rfl, rfl,
    fun _ => Nat.le_refl _⟩
  · rw [parserAdvance, hnext]
  · show if t.type = .eof then lx'.Finished else lx'.InBounds
    rcases hread with ⟨ht, hfin⟩ | ⟨ht, hin', -⟩
    · rw [if_pos ht]
      exact hfin
    · rw [if_neg ht]
      exact hin'
  · show p.current :: p.lexer.tokens = [p.current] ++ t :: lx'.tokens
    rw [htoks]
    rfl

theorem parserAdvance_calm {p' : Parser} (hrun : parserAdvance p = .ok ((), p')) :
    p'.nestingFailed = p.nestingFailed := by
  rw [parserAdvance] at hrun
  split at hrun
  · obtain ⟨-, rfl⟩ := Prod.mk.inj (Except.ok.inj hrun)
    rfl
  · exact absurd hrun (by simp)

theorem sat_advance {f : Unit → ParserM α} (h : p.Ok) (heof : p.current.type ≠ .eof)
    (hf : ∀ p', Eats p [p.current] p' → Sat (f ()) p' Q) : Sat (parserAdvance >>= f) p Q :=
  (parserAdvance_eats h heof).seq fun _ p' hp' => hf p' hp'

theorem sat_check {type : TokenType} {f : Bool → ParserM α} (hyes : p.current.type = type → Sat (f true) p Q)
    (hno : p.current.type ≠ type → Sat (f false) p Q) : Sat (parserCheck type >>= f) p Q := by
  show Sat (f (decide (p.current.type = type))) p Q
  by_cases htype : p.current.type = type
  · rw [decide_eq_true htype]
    exact hyes htype
  · rw [decide_eq_false htype]
    exact hno htype

theorem sat_currentIs {text : String} {f : Bool → ParserM α}
    (hyes : p.current.type = .identifier → Sat (f true) p Q) (hno : Sat (f false) p Q) :
    Sat (currentIs text >>= f) p Q := by
  show Sat (f (parserIsToken p.current text)) p Q
  cases hb : parserIsToken p.current text with
  | false => exact hno
  | true =>
      simp only [parserIsToken, Bool.and_eq_true, decide_eq_true_eq] at hb
      exact hyes hb.1

theorem sat_currentToken {f : Token → ParserM α} (hf : Sat (f p.current) p Q) : Sat (currentToken >>= f) p Q := hf

theorem sat_previousToken {f : Token → ParserM α} (hf : Sat (f p.previous) p Q) : Sat (previousToken >>= f) p Q := hf

theorem sat_error {message : String} {f : Unit → ParserM α} (h : p.Ok)
    (hf : ∀ p', Eats p [] p' → Sat (f ()) p' Q) : Sat (parserError message >>= f) p Q :=
  hf _ ((Eats.refl h).report _)

theorem sat_errorAt {message : String} {f : Unit → ParserM α} (h : p.Ok)
    (hf : ∀ p', Eats p [] p' → Sat (f ()) p' Q) : Sat (parserErrorAt message >>= f) p Q :=
  hf _ ((Eats.refl h).report _)

theorem sat_consume {type : TokenType} {message : String} {f : Bool → ParserM α} (h : p.Ok) (heof : type ≠ .eof)
    (hyes : ∀ p', p.current.type = type → Eats p [p.current] p' → Sat (f true) p' Q)
    (hno : ∀ p', Eats p [] p' → Sat (f false) p' Q) : Sat (parserConsume type message >>= f) p Q := by
  have hrun : Sat (parserConsume type message) p fun b p' =>
      (b = true ∧ p.current.type = type ∧ Eats p [p.current] p') ∨ (b = false ∧ Eats p [] p') := by
    refine sat_check (fun htype => ?_) fun _ => ?_
    · exact sat_advance h (htype ▸ heof) fun p' hp' => Sat.pure (.inl ⟨rfl, htype, hp'⟩)
    · exact sat_errorAt h fun p' hp' => Sat.pure (.inr ⟨rfl, hp'⟩)
  refine hrun.seq ?_
  rintro b p' (⟨rfl, htype, hp'⟩ | ⟨rfl, hp'⟩)
  · exact hyes p' htype hp'
  · exact hno p' hp'

/-- An operator is counted or refused. -/
theorem sat_note {f : Bool → ParserM α} (h : p.Ok)
    (hyes : ∀ p', Eats p [] p' → p.expressionOperatorCount < p'.expressionOperatorCount → Sat (f true) p' Q)
    (hno : ∀ p', Eats p [] p' → Sat (f false) p' Q) : Sat (parserNoteExpressionOperator >>= f) p Q := by
  have hrun : Sat parserNoteExpressionOperator p fun b p' =>
      (b = true ∧ Eats p [] p' ∧ p.expressionOperatorCount < p'.expressionOperatorCount) ∨
      (b = false ∧ Eats p [] p') := by
    refine Sat.bind (Sat.get ?_)
    refine Sat.ite (fun _ => Sat.pure (.inr ⟨rfl, Eats.refl h⟩)) fun _ => ?_
    refine Sat.ite (fun _ => ?_) fun hlt => ?_
    · refine Sat.bind (Sat.modify ?_)
      have hfailed : Eats p [] { p with nestingFailed := true } :=
        ⟨⟨h.ready, h.depth, h.count⟩, rfl, rfl, rfl, fun _ => Nat.le_refl _⟩
      exact sat_errorAt hfailed.ok fun p' hp' => Sat.pure (.inr ⟨rfl, hfailed.trans hp'⟩)
    · refine Sat.bind (Sat.modify (Sat.pure (.inl ⟨rfl, ⟨⟨h.ready, h.depth, ?_⟩, rfl, rfl, rfl, ?_⟩, ?_⟩)))
      · exact Nat.lt_of_not_le hlt
      · exact fun _ => Nat.le_succ _
      · exact Nat.lt_succ_self _
  refine hrun.seq ?_
  rintro b p' (⟨rfl, hp', hlt⟩ | ⟨rfl, hp'⟩)
  · exact hyes p' hp' hlt
  · exact hno p' hp'

/-- One level of nesting is opened or refused. -/
theorem sat_enter {context : String} {f : Bool → ParserM α} (h : p.Ok)
    (hyes : p.nestingDepth < vntParserMaxNesting →
      Sat (f true) { p with nestingDepth := p.nestingDepth + 1 } Q)
    (hno : ∀ p', Eats p [] p' → Sat (f false) p' Q) : Sat (parserEnterNesting context >>= f) p Q := by
  have hrun : Sat (parserEnterNesting context) p fun b p' =>
      (b = true ∧ p' = { p with nestingDepth := p.nestingDepth + 1 } ∧ p.nestingDepth < vntParserMaxNesting) ∨
      (b = false ∧ Eats p [] p') := by
    refine Sat.bind (Sat.get ?_)
    refine Sat.ite (fun _ => Sat.pure (.inr ⟨rfl, Eats.refl h⟩)) fun _ => ?_
    refine Sat.ite (fun _ => ?_) fun hlt => ?_
    · refine Sat.bind (Sat.modify ?_)
      have hfailed : Eats p [] { p with nestingFailed := true } :=
        ⟨⟨h.ready, h.depth, h.count⟩, rfl, rfl, rfl, fun _ => Nat.le_refl _⟩
      exact sat_errorAt hfailed.ok fun p' hp' => Sat.pure (.inr ⟨rfl, hfailed.trans hp'⟩)
    · exact Sat.bind (Sat.modify (Sat.pure (.inl ⟨rfl, rfl, Nat.lt_of_not_le hlt⟩)))
  refine hrun.seq ?_
  rintro b p' (⟨rfl, rfl, hlt⟩ | ⟨rfl, hp'⟩)
  · exact hyes hlt
  · exact hno p' hp'

theorem isNull_iff {a : AstNode} : isNull a = true ↔ a = .null := by
  cases a <;> simp [isNull]

/-- Branching on whether a parse function returned `NULL`. -/
theorem sat_null {a : AstNode} {m m' : ParserM α} (hnull : a = .null → Sat m p Q) (hnode : a ≠ .null → Sat m' p Q) :
    Sat (if isNull a then m else m') p Q :=
  Sat.ite (fun h => hnull (isNull_iff.mp h)) fun h => hnode fun ha => h (isNull_iff.mpr ha)

end Vnt.Parse
