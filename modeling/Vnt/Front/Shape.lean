import Vnt.Front.Checked

/-!
# `Front.Shape` — trees the parser can build

The node type lets any node stand anywhere. The parser puts expressions where expressions belong, one of
them for each operand, and statements where statements belong; `expressionShape` and `statementShape` say
so.
-/

namespace Vnt

open Lib

def AstLeaf.isExpression : AstLeaf → Bool
  | .stringLiteral _ | .integerLiteral _ | .floatLiteral _ | .booleanLiteral _ | .nullLiteral
  | .variable _ => true
  | _ => false

/-- A chain of expressions, each with exactly its operands. -/
@[simp] def expressionShape : AstNode → Bool
  | .null => true
  | .leaf kind n => kind.isExpression && expressionShape n
  | .one kind a n =>
      (match kind with
        | .functionCall _ | .arrayLiteral => true
        | .memberExpression _ | .unaryExpression _ => a.length == 1
        | _ => false) && expressionShape a && expressionShape n
  | .two kind a b n =>
      (match kind with
        | .indexExpression | .binaryExpression _ => a.length == 1 && b.length == 1
        | _ => false) && expressionShape a && expressionShape b && expressionShape n
  | .ifStatement _ _ _ _ => false

/-- Exactly one expression. -/
def operandShape (e : AstNode) : Bool := e.length == 1 && expressionShape e

/-- A chain of statements. -/
@[simp] def statementShape : AstNode → Bool
  | .null => true
  | .leaf kind n => !kind.isExpression && statementShape n
  | .one kind a n =>
      (match kind with
        | .printStatement | .variableDeclaration _ _ _ => operandShape a
        | .functionCall _ => expressionShape a
        | .returnStatement => a == .null || operandShape a
        | .functionDeclaration _ | .unsafeBlock => statementShape a
        | _ => false) && statementShape n
  | .two kind a b n =>
      (match kind with
        | .whileStatement => operandShape a && statementShape b
        | .assignment => operandShape a && operandShape b
        | _ => false) && statementShape n
  | .ifStatement c t e n => operandShape c && statementShape t && statementShape e && statementShape n

/-- A program as the parser returns it. -/
def programShape : AstNode → Bool
  | .one .program statements .null => statementShape statements
  | _ => false

/-! ## The checker keeps the shape -/

theorem length_resolveCalls (tc : TypeChecker) (e : AstNode) : (resolveCalls tc e).length = e.length := by
  induction e with
  | null => rfl
  | leaf kind n hn => simp [AstNode.length, hn]
  | one kind a n _ hn => cases kind <;> simp [AstNode.length, hn]
  | two kind a b n _ _ hn => cases kind <;> simp [AstNode.length, hn]
  | ifStatement c t e n _ _ _ hn => simp [AstNode.length, hn]

theorem expressionShape_resolveCalls (tc : TypeChecker) (e : AstNode) :
    expressionShape (resolveCalls tc e) = expressionShape e := by
  induction e with
  | null => rfl
  | leaf kind n hn => simp [hn]
  | one kind a n ha hn => cases kind <;> simp [length_resolveCalls, ha, hn]
  | two kind a b n ha hb hn =>
      cases kind <;> simp [length_resolveCalls, ha, hb, hn]
  | ifStatement c t e n _ _ _ hn => simp

theorem operandShape_resolveCalls (tc : TypeChecker) (e : AstNode) :
    operandShape (resolveCalls tc e) = operandShape e := by
  simp only [operandShape, length_resolveCalls, expressionShape_resolveCalls]

theorem resolveCalls_eq_null {tc : TypeChecker} {e : AstNode} : resolveCalls tc e = .null ↔ e = .null := by
  cases e with
  | null => simp
  | leaf kind n => simp
  | one kind a n => cases kind <;> simp
  | two kind a b n => cases kind <;> simp
  | ifStatement c t e n => simp

theorem Checked.shape {tc tc' : TypeChecker} {n n' : AstNode} (h : Checked tc n tc' n') :
    statementShape n' = statementShape n := by
  induction h with
  | null => rfl
  | leaf _ _ ih => simp [ih]
  | declaration _ _ _ ih => simp [operandShape_resolveCalls, ih]
  | print _ _ ih => simp [operandShape_resolveCalls, ih]
  | @returnStatement tc _ e _ _ _ _ _ _ ih =>
      have hnull : (resolveCalls tc e == .null) = (e == .null) := by
        rw [Bool.eq_iff_iff, beq_iff_eq, beq_iff_eq, resolveCalls_eq_null]
      simp only [statementShape, operandShape_resolveCalls, ih, hnull]
  | call _ _ ih => simp [expressionShape_resolveCalls, ih]
  | unsafeBlock _ _ ihb ihn => simp [ihb, ihn]
  | function _ _ _ ihb ihn => simp [ihb, ihn]
  | @inertOne _ _ kind _ _ _ inert _ ih => cases kind <;> simp_all [AstOne.isInert]
  | assignment _ _ _ ih => simp [operandShape_resolveCalls, ih]
  | whileStatement _ _ _ ihb ihn => simp [operandShape_resolveCalls, ihb, ihn]
  | @inertTwo _ _ kind _ _ _ _ inert _ ih => cases kind <;> simp_all [AstTwo.isInert]
  | ifStatement _ _ _ _ _ iht ihe ihn => simp [operandShape_resolveCalls, iht, ihe, ihn]

/-! ## Typed expressions -/

/-- Every entry of a chain was typed without error. -/
def AllOk (ms : List (Check TypeKind)) : Prop := ∀ m ∈ ms, ∃ t, m = .ok t

theorem AllOk.of_checkArguments {message : String} {ms : List (Check TypeKind)} {ts : List TypeKind}
    (h : checkArguments message ms = .ok ts) : AllOk ms := by
  induction ms generalizing ts with
  | nil => intro m hm; cases hm
  | cons m ms ih =>
      simp only [checkArguments, bind_eq_ok] at h
      obtain ⟨t, ht, _, _, ts', hts, _⟩ := h
      intro m' hm'
      rcases List.mem_cons.mp hm' with rfl | hmem
      · exact ⟨t, ht⟩
      · exact ih hts m' hmem

theorem length_exprTypes (tc : TypeChecker) (e : AstNode) : (exprTypes tc e).length = e.length := by
  induction e <;> simp_all [exprTypes, AstNode.length]

/-- A single operand that was typed is a chain that was typed. -/
theorem AllOk.of_headType {tc : TypeChecker} {e : AstNode} {t : TypeKind} (hlen : e.length ≤ 1)
    (h : headType (exprTypes tc e) = .ok t) : AllOk (exprTypes tc e) := by
  have hl := length_exprTypes tc e
  intro m hm
  cases hms : exprTypes tc e with
  | nil => rw [hms] at hm; cases hm
  | cons m₀ ms =>
      rw [hms] at hm h hl
      have hnil : ms = [] := List.length_eq_zero_iff.mp (by simp at hl; omega)
      subst hnil
      rw [List.mem_singleton.mp hm]
      exact ⟨t, h⟩

end Vnt
