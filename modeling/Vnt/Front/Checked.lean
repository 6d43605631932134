import Vnt.Front.Typecheck
import Vnt.Lib.Prog

/-!
# `Front.Checked` — what an accepted statement list looks like

`Checked tc n tc' n'` is the relation `check_statements` computes when it finds no error: one rule a
statement form, with the tests that were passed as premises. Facts about accepted programs are inductions
over it, so the checker's own code is taken apart only here.
-/

namespace Vnt

open Lib

theorem failIf_eq_ok {c : Prop} [Decidable c] {message : String} {u : Unit} :
    failIf c message = .ok u ↔ ¬ c := by
  unfold failIf
  split
  · rename_i h
    exact ⟨fun he => absurd he throw_ne_ok, fun hn => absurd h hn⟩
  · rename_i h
    exact ⟨fun _ => h, fun _ => rfl⟩

/-- Statement forms the checker passes over. -/
def AstOne.isInert : AstOne → Bool
  | .program | .arrayLiteral | .memberExpression _ | .unaryExpression _ => true
  | _ => false

def AstTwo.isInert : AstTwo → Bool
  | .indexExpression | .binaryExpression _ => true
  | _ => false

/-- What an unsafe block is checked under. -/
def enterUnsafe (tc : TypeChecker) : TypeChecker :=
  { tc with scopeDepth := tc.scopeDepth + 1, unsafeDepth := tc.unsafeDepth + 1 }

/-- What a loop body is checked under. -/
def enterLoop (tc : TypeChecker) : TypeChecker :=
  { tc with scopeDepth := tc.scopeDepth + 1, loopDepth := tc.loopDepth + 1 }

/-- What a branch is checked under. -/
def enterBranch (tc : TypeChecker) : TypeChecker := { tc with scopeDepth := tc.scopeDepth + 1 }

/-- `check_statements` accepts `n` from `tc`, ends in `tc'` and leaves `n'`. -/
inductive Checked : TypeChecker → AstNode → TypeChecker → AstNode → Prop
  | null {tc} : Checked tc .null tc .null
  | leaf {tc tc' kind n n'} (test : checkLeaf tc kind = .ok ()) (rest : Checked tc n tc' n') :
      Checked tc (.leaf kind n) tc' (.leaf kind n')
  | declaration {tc tc₁ tc' name declared b value t n n'} (value_ok : exprType tc value = .ok t)
      (store : checkDeclaration (tc.logExpr value) name declared t = .ok tc₁)
      (rest : Checked (tc₁.logSymbol name) n tc' n') :
      Checked tc (.one (.variableDeclaration name declared b) value n) tc'
        (.one (.variableDeclaration name declared (tc.isReassignment name declared)) (resolveCalls tc value) n')
  | print {tc tc' e t n n'} (value_ok : exprType tc e = .ok t) (rest : Checked (tc.logExpr e) n tc' n') :
      Checked tc (.one .printStatement e n) tc' (.one .printStatement (resolveCalls tc e) n')
  | returnStatement {tc tc' e t n n'} (inside : tc.inFunction = true) (value_ok : exprType tc e = .ok t)
      (rest : Checked (tc.logExpr e) n tc' n') :
      Checked tc (.one .returnStatement e n) tc' (.one .returnStatement (resolveCalls tc e) n')
  | call {tc tc' name args t n n'} (value_ok : exprType tc (.one (.functionCall name) args .null) = .ok t)
      (rest : Checked (tc.logExpr (.one (.functionCall name) args .null)) n tc' n') :
      Checked tc (.one (.functionCall name) args n) tc'
        (.one (.functionCall (tc.resolveName name args.length)) (resolveCalls tc args) n')
  | unsafeBlock {tc inner tc' body body' n n'} (block : Checked (enterUnsafe tc) body inner body')
      (rest : Checked (leaveBlock tc inner) n tc' n') :
      Checked tc (.one .unsafeBlock body n) tc' (.one .unsafeBlock body' n')
  | function {tc tc₂ inner tc' h body body' n n'}
      (parameters : declareParameters h.parameters [] (enterFunction tc h) = .ok tc₂)
      (block : Checked tc₂ body inner body') (rest : Checked (leaveBlock tc inner) n tc' n') :
      Checked tc (.one (.functionDeclaration h) body n) tc' (.one (.functionDeclaration h) body' n')
  | inertOne {tc tc' kind child n n'} (inert : kind.isInert = true) (rest : Checked tc n tc' n') :
      Checked tc (.one kind child n) tc' (.one kind child n')
  | assignment {tc tc' target value t v n n'} (target_ok : exprType tc target = .ok t)
      (value_ok : exprType tc value = .ok v)
      (rest : Checked ((tc.logExpr target).logExpr value) n tc' n') :
      Checked tc (.two .assignment target value n) tc'
        (.two .assignment (resolveCalls tc target) (resolveCalls tc value) n')
  | whileStatement {tc inner tc' c t body body' n n'} (condition_ok : exprType tc c = .ok t)
      (block : Checked (enterLoop (tc.logExpr c)) body inner body')
      (rest : Checked (leaveBlock (tc.logExpr c) inner) n tc' n') :
      Checked tc (.two .whileStatement c body n) tc'
        (.two .whileStatement (resolveCalls tc c) body' n')
  | inertTwo {tc tc' kind a b n n'} (inert : kind.isInert = true) (rest : Checked tc n tc' n') :
      Checked tc (.two kind a b n) tc' (.two kind a b n')
  | ifStatement {tc first restored second tc' c ty t t' e e' n n'} (condition_ok : exprType tc c = .ok ty)
      (thenBlock : Checked (enterBranch (tc.logExpr c)) t first t')
      (restore : restored = (leaveBlock (tc.logExpr c) first).restoreSymbols (tc.logExpr c).symbols)
      (elseBlock : Checked (enterBranch restored) e second e')
      (rest : Checked ((leaveBlock restored second).mergeBranchSymbols (tc.logExpr c).symbols
        (leaveBlock (tc.logExpr c) first).symbols) n tc' n') :
      Checked tc (.ifStatement c t e n) tc' (.ifStatement (resolveCalls tc c) t' e' n')

/-- Success of the checker, rule by rule. -/
theorem checked_of_ok (n : AstNode) : ∀ {tc : TypeChecker} {r : TypeChecker × AstNode},
    checkStatements n tc = .ok r → Checked tc n r.1 r.2 := by
  induction n with
  | null =>
      intro tc r h
      cases h
      exact .null
  | leaf kind n hn =>
      intro tc r h
      simp only [checkStatements, bind_eq_ok, pure_eq_ok] at h
      obtain ⟨_, hk, r', hr, rfl⟩ := h
      exact .leaf hk (hn hr)
  | one kind child n hc hn =>
      intro tc r h
      cases kind with
      | variableDeclaration name declared b =>
          simp only [checkStatements, bind_eq_ok, pure_eq_ok] at h
          obtain ⟨t, ht, tc₁, hd, r', hr, rfl⟩ := h
          exact .declaration ht hd (hn hr)
      | printStatement =>
          simp only [checkStatements, bind_eq_ok, pure_eq_ok] at h
          obtain ⟨t, ht, -, -, r', hr, rfl⟩ := h
          exact .print ht (hn hr)
      | returnStatement =>
          simp only [checkStatements, bind_eq_ok, pure_eq_ok, failIf_eq_ok] at h
          obtain ⟨-, hin, t, ht, -, -, r', hr, rfl⟩ := h
          exact .returnStatement (by simpa using hin) ht (hn hr)
      | functionCall name =>
          simp only [checkStatements, bind_eq_ok, pure_eq_ok] at h
          obtain ⟨t, ht, r', hr, rfl⟩ := h
          exact .call ht (hn hr)
      | unsafeBlock =>
          simp only [checkStatements, bind_eq_ok, pure_eq_ok] at h
          obtain ⟨inner, hb, r', hr, rfl⟩ := h
          exact .unsafeBlock (hc hb) (hn hr)
      | functionDeclaration header =>
          simp only [checkStatements, bind_eq_ok, pure_eq_ok] at h
          obtain ⟨-, -, tc₂, hp, inner, hb, -, -, r', hr, rfl⟩ := h
          exact .function hp (hc hb) (hn hr)
      | _ =>
          simp only [checkStatements, bind_eq_ok, pure_eq_ok] at h
          obtain ⟨r', hr, rfl⟩ := h
          exact .inertOne rfl (hn hr)
  | two kind a b n ha hb hn =>
      intro tc r h
      cases kind with
      | assignment =>
          simp only [checkStatements, bind_eq_ok, pure_eq_ok] at h
          obtain ⟨t, ht, v, hv, -, -, r', hr, rfl⟩ := h
          exact .assignment ht hv (hn hr)
      | whileStatement =>
          simp only [checkStatements, bind_eq_ok, pure_eq_ok] at h
          obtain ⟨t, ht, -, -, inner, hi, r', hr, rfl⟩ := h
          exact .whileStatement ht (hb hi) (hn hr)
      | _ =>
          simp only [checkStatements, bind_eq_ok, pure_eq_ok] at h
          obtain ⟨r', hr, rfl⟩ := h
          exact .inertTwo rfl (hn hr)
  | ifStatement c t e n hc ht he hn =>
      intro tc r h
      simp only [checkStatements, bind_eq_ok, pure_eq_ok] at h
      obtain ⟨ty, hty, -, -, first, hf, second, hs, r', hr, rfl⟩ := h
      exact .ifStatement hty (ht hf) rfl (he hs) (hn hr)

/-! ## What the checker leaves as it was -/

/-- The two states differ at most in symbols, serial numbers and log. -/
def SameContext (tc tc' : TypeChecker) : Prop :=
  tc' = { tc with symbols := tc'.symbols, nextSerial := tc'.nextSerial, log := tc'.log }

theorem SameContext.trans {tc tc' tc'' : TypeChecker} (h : SameContext tc tc') (h' : SameContext tc' tc'') :
    SameContext tc tc'' := by
  unfold SameContext at *
  rw [h', h]

theorem sameContext_setSymbol {tc tc' : TypeChecker} {name : String} {t : TypeKind} {b : Bool}
    (h : tc.setSymbol name t b = .ok tc') : SameContext tc tc' := by
  unfold TypeChecker.setSymbol at h
  split at h
  · obtain ⟨symbols, -, hs⟩ := bind_eq_ok.mp h
    cases hs
    rfl
  · cases h
    rfl

theorem sameContext_checkDeclaration {tc tc' : TypeChecker} {name : String} {declared : Option String}
    {t : TypeKind} (h : checkDeclaration tc name declared t = .ok tc') : SameContext tc tc' := by
  unfold checkDeclaration at h
  obtain ⟨-, -, h⟩ := bind_eq_ok.mp h
  split at h
  · simp only [checkDeclared, bind_eq_ok] at h
    obtain ⟨-, -, -, -, -, -, h⟩ := h
    split at h
    · cases h
      rfl
    · exact sameContext_setSymbol h
  · obtain ⟨-, -, h⟩ := bind_eq_ok.mp h
    exact sameContext_setSymbol h

theorem sameContext_declareParameters : ∀ {ps : List (String × Option String)} {seen : List String}
    {tc tc' : TypeChecker}, declareParameters ps seen tc = .ok tc' → SameContext tc tc' := by
  intro ps
  induction ps with
  | nil => intro seen tc tc' h; cases h; rfl
  | cons p ps ih =>
      intro seen tc tc' h
      simp only [declareParameters, bind_eq_ok] at h
      obtain ⟨-, -, -, -, h⟩ := h
      have hstep : SameContext tc ((tc.addSymbol p.1 ((p.2.map typeFromName).getD .unknown)
        ((p.2.map typeFromName).getD .unknown != .unknown)).logSymbol p.1) := rfl
      exact hstep.trans (ih h)

/-! ## Programs -/

/-- Collecting the declarations touches only the two tables. -/
theorem collectDeclarations_ok (n : AstNode) : ∀ {tc tc' : TypeChecker},
    collectDeclarations n tc = .ok tc' →
      tc' = { tc with functions := tc'.functions, structs := tc'.structs } := by
  induction n with
  | null => intro tc tc' h; cases h; rfl
  | leaf kind n hn =>
      intro tc tc' h
      cases kind with
      | structDeclaration name fields =>
          simp only [collectDeclarations] at h
          split at h
          · cases h
          · split at h
            · cases h
            · rw [hn h]
      | _ => exact hn h
  | one kind child n _ hn =>
      intro tc tc' h
      cases kind with
      | functionDeclaration header =>
          simp only [collectDeclarations] at h
          split at h
          · cases h
          · rw [hn h]
      | _ => exact hn h
  | two kind a b n _ _ hn => exact fun h => hn h
  | ifStatement c t e n _ _ _ hn => exact fun h => hn h

/-- An accepted program, taken apart. -/
theorem vntTypecheck_ok {ast ast' : AstNode} (h : vntTypecheck ast = .ok ast') :
    ∃ statements next tc tc' statements', ast = .one .program statements next ∧
      collectDeclarations statements .initial = .ok tc ∧ Checked tc statements tc' statements' ∧
      ast' = .one .program statements' next := by
  unfold vntTypecheck at h
  split at h
  · rename_i statements next
    obtain ⟨⟨tc', statements'⟩, hr, hp⟩ := bind_eq_ok.mp h
    obtain ⟨tc, hc, hs⟩ := bind_eq_ok.mp hr
    cases hp
    exact ⟨statements, next, tc, tc', statements', rfl, hc, checked_of_ok statements hs, rfl⟩
  · exact absurd h throw_ne_ok

end Vnt
