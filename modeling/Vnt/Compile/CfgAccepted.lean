import Vnt.Cfg.Finish
import Vnt.Compile.Accepted
import Vnt.Front.Shape

/-!
# `Compile.CfgAccepted` — which accepted programs get a control-flow graph

The type checker counts loops, so every `break` and `continue` it lets pass is inside a loop; lowering keeps
the nesting and the optimizer never moves a statement out of a loop. What then decides whether the graph is
built is whether anything in the program can finish.
-/

namespace Vnt

/-! ## The checker's part -/

theorem exitsInLoops_head {h : Hir} {inLoop : Bool} (hx : exitsInLoops inLoop h = true) :
    exitsInLoops inLoop h.head = true := by
  cases h with
  | nil => rfl
  | leaf i op n =>
      simp only [exitsInLoops, Hir.head, Bool.and_eq_true] at hx ⊢
      exact ⟨hx.1, trivial⟩
  | one i op a n =>
      cases op <;>
      · simp only [exitsInLoops, Hir.head, Bool.and_eq_true] at hx ⊢
        exact ⟨hx.1, trivial⟩
  | two i op a b n =>
      cases op <;>
      · simp only [exitsInLoops, Hir.head, Bool.and_eq_true] at hx ⊢
        exact ⟨hx.1, trivial⟩
  | ifNode i c t e n =>
      simp only [exitsInLoops, Hir.head, Bool.and_eq_true] at hx ⊢
      exact ⟨hx.1, trivial⟩

/-- Expressions hold no `break` and no `continue`. -/
theorem exitsInLoops_expression {e : AstNode} (h : expressionShape e = true) (inLoop : Bool) :
    exitsInLoops inLoop (lowerList e) = true := by
  induction e with
  | null => rfl
  | leaf kind n hn =>
      simp only [expressionShape, Bool.and_eq_true] at h
      simp only [lowerList, exitsInLoops, Bool.and_eq_true]
      refine ⟨?_, hn h.2⟩
      have hk := h.1
      cases kind <;> first | (cases hk; done) | simp
  | one kind a n ha hn =>
      simp only [expressionShape, Bool.and_eq_true] at h
      cases kind with
      | functionCall name => simp [ha h.1.2, hn h.2]
      | arrayLiteral => simp [ha h.1.2, hn h.2]
      | memberExpression m =>
          simp [exitsInLoops_head (ha h.1.2), hn h.2]
      | unaryExpression op =>
          simp [exitsInLoops_head (ha h.1.2), hn h.2]
      | _ => simp at h
  | two kind a b n ha hb hn =>
      simp only [expressionShape, Bool.and_eq_true] at h
      cases kind with
      | indexExpression =>
          simp [exitsInLoops_head (ha h.1.1.2), exitsInLoops_head (hb h.1.2), hn h.2]
      | binaryExpression op =>
          simp [exitsInLoops_head (ha h.1.1.2), exitsInLoops_head (hb h.1.2), hn h.2]
      | _ => simp at h
  | ifStatement c t e n _ _ _ _ => cases h

theorem exitsInLoops_operand {tc : TypeChecker} {e : AstNode} (h : operandShape e = true) (inLoop : Bool) :
    exitsInLoops inLoop (lowerList (resolveCalls tc e)).head = true := by
  simp only [operandShape, Bool.and_eq_true] at h
  exact exitsInLoops_head (exitsInLoops_expression (by rw [expressionShape_resolveCalls]; exact h.2) inLoop)

theorem exitsInLoops_leaf {tc : TypeChecker} {kind : AstLeaf} {inLoop : Bool}
    (h : checkLeaf tc kind = .ok ()) (hl : tc.loopDepth ≠ 0 → inLoop = true) :
    (inLoop || (lowerLeaf kind != .breakNode && lowerLeaf kind != .continueNode)) = true := by
  cases kind with
  | breakStatement => simp [hl (failIf_eq_ok.mp h)]
  | continueStatement => simp [hl (failIf_eq_ok.mp h)]
  | _ => simp

/-- The checker counts the loops around a statement. -/
theorem Checked.inLoops {tc tc' : TypeChecker} {n n' : AstNode} (h : Checked tc n tc' n') :
    ∀ {inLoop : Bool}, (tc.loopDepth ≠ 0 → inLoop = true) → statementShape n = true →
      exitsInLoops inLoop (lowerList n') = true := by
  induction h with
  | null => intro _ _ _; rfl
  | leaf test _ ih =>
      intro inLoop hl hs
      simp only [statementShape, Bool.and_eq_true] at hs
      simp only [lowerList, exitsInLoops, Bool.and_eq_true]
      exact ⟨exitsInLoops_leaf test hl, ih hl hs.2⟩
  | @declaration tc tc₁ tc' name declared b value t n n' _ store _ ih =>
      intro inLoop hl hs
      simp only [statementShape, Bool.and_eq_true] at hs
      have hc := sameContext_checkDeclaration store
      have hd : (tc₁.logSymbol name).loopDepth ≠ 0 → inLoop = true := by
        unfold SameContext at hc
        rw [hc]
        exact hl
      have ho : exitsInLoops inLoop (lowerList (resolveCalls tc value)).head = true :=
        exitsInLoops_operand hs.1 inLoop
      simp only [lowerList, lowerOpcode, AstOne.isList]
      split <;> simp [ho, ih hd hs.2]
  | print _ _ ih =>
      intro inLoop hl hs
      simp only [statementShape, Bool.and_eq_true] at hs
      simp [exitsInLoops_operand hs.1, ih hl hs.2]
  | @returnStatement tc _ e _ _ _ _ _ _ ih =>
      intro inLoop hl hs
      simp only [statementShape, Bool.and_eq_true, Bool.or_eq_true, beq_iff_eq] at hs
      have ho : exitsInLoops inLoop (lowerList (resolveCalls tc e)).head = true := by
        rcases hs.1 with rfl | h
        · rfl
        · exact exitsInLoops_operand h inLoop
      simp [ho, ih hl hs.2]
  | @call tc _ name args _ _ _ _ _ ih =>
      intro inLoop hl hs
      simp only [statementShape, Bool.and_eq_true] at hs
      have ho := exitsInLoops_expression
        (show expressionShape (resolveCalls tc args) = true by rw [expressionShape_resolveCalls]; exact hs.1)
      simp [ho, ih hl hs.2]
  | unsafeBlock _ _ ihb ihn =>
      intro inLoop hl hs
      simp only [statementShape, Bool.and_eq_true] at hs
      simp [ihb hl hs.1, ihn hl hs.2]
  | function parameters _ _ ihb ihn =>
      intro inLoop hl hs
      simp only [statementShape, Bool.and_eq_true] at hs
      -- A function body starts outside every loop.
      have hc := sameContext_declareParameters parameters
      have hzero := congrArg TypeChecker.loopDepth hc
      have hb := @ihb false (fun hne => absurd hzero hne) hs.1
      simp [hb, ihn hl hs.2]
  | @inertOne _ _ kind _ _ _ inert _ _ =>
      intro inLoop hl hs
      cases kind <;> simp_all [AstOne.isInert]
  | assignment _ _ _ ih =>
      intro inLoop hl hs
      simp only [statementShape, Bool.and_eq_true] at hs
      simp [exitsInLoops_operand hs.1.1, exitsInLoops_operand hs.1.2, ih hl hs.2]
  | whileStatement _ _ _ ihb ihn =>
      intro inLoop hl hs
      simp only [statementShape, Bool.and_eq_true] at hs
      have hb := @ihb true (fun _ => rfl) hs.1.2
      simp [exitsInLoops_operand hs.1.1, hb, ihn hl hs.2]
  | @inertTwo _ _ kind _ _ _ _ inert _ _ =>
      intro inLoop hl hs
      cases kind <;> simp_all [AstTwo.isInert]
  | ifStatement _ _ restore _ _ iht ihe ihn =>
      intro inLoop hl hs
      subst restore
      simp only [statementShape, Bool.and_eq_true] at hs
      simp [exitsInLoops_operand hs.1.1.1, iht hl hs.1.1.2, ihe hl hs.1.2, ihn hl hs.2]

/-! ## The outline and the optimizer -/

theorem exitsInLoops_outline (h : Hir) : ∀ inLoop, exitsInLoops inLoop h.outline = exitsInLoops inLoop h := by
  induction h with
  | nil => intro _; rfl
  | leaf i op n hn =>
      intro inLoop
      cases op with
      | «variable» x =>
          simp only [Hir.outline, HirLeaf.outline, exitsInLoops, hn]
          rfl
      | _ => simp only [Hir.outline, HirLeaf.outline, exitsInLoops, hn]
  | one i op a n ha hn => intro inLoop; cases op <;> simp [HirOne.outline, ha, hn]
  | two i op a b n ha hb hn => intro inLoop; cases op <;> simp [ha, hb, hn]
  | ifNode i c t e n hc ht he hn => intro inLoop; simp [hc, ht, he, hn]

/-- A literal in the place of an expression. -/
theorem exitsInLoops_constant (i : Nat) (c : HirConstant) (n : Hir) (inLoop : Bool) :
    exitsInLoops inLoop (.leaf i c.toLeaf n) = exitsInLoops inLoop n := by
  cases c <;> simp [HirConstant.toLeaf]

theorem exitsInLoops_hirFoldNode (f : FloatUnit) (h : Hir) : ∀ {inLoop : Bool},
    exitsInLoops inLoop h = true → exitsInLoops inLoop (hirFoldNode f h).1 = true := by
  induction h with
  | nil => intro _ h; exact h
  | leaf i op n hn =>
      intro inLoop h
      simp only [exitsInLoops, Bool.and_eq_true] at h
      simp [hirFoldNode, h.1, hn h.2]
  | one i op a n ha hn =>
      intro inLoop h
      have hxn : exitsInLoops inLoop n = true := by
        cases op <;> simp only [exitsInLoops, Bool.and_eq_true] at h <;> exact h.2
      simp only [hirFoldNode]
      split
      · rw [exitsInLoops_constant]
        exact hn hxn
      · cases op <;>
        · simp only [exitsInLoops, Bool.and_eq_true] at h ⊢
          exact ⟨ha h.1, hn hxn⟩
  | two i op a b n ha hb hn =>
      intro inLoop h
      have hxn : exitsInLoops inLoop n = true := by
        cases op <;> simp only [exitsInLoops, Bool.and_eq_true] at h <;> exact h.2
      simp only [hirFoldNode]
      split
      · rw [exitsInLoops_constant]
        exact hn hxn
      · cases op <;>
        · simp only [exitsInLoops, Bool.and_eq_true] at h ⊢
          exact ⟨⟨ha h.1.1, hb h.1.2⟩, hn hxn⟩
  | ifNode i c t e n hc ht he hn =>
      intro inLoop h
      simp only [hirFoldNode, exitsInLoops, Bool.and_eq_true] at h ⊢
      exact ⟨⟨⟨hc h.1.1.1, ht h.1.1.2⟩, he h.1.2⟩, hn h.2⟩

theorem exitsInLoops_hirSubstituteExpression (h : Hir) : ∀ {inLoop : Bool} (env : HirConstantEnvironment),
    exitsInLoops inLoop h = true → exitsInLoops inLoop (hirSubstituteExpression h env).1 = true := by
  induction h with
  | nil => intro _ _ h; exact h
  | leaf i op n hn =>
      intro inLoop env h
      simp only [exitsInLoops, Bool.and_eq_true] at h
      cases op with
      | «variable» x =>
          simp only [hirSubstituteExpression]
          split
          · rw [exitsInLoops_constant]
            exact hn env h.2
          · simp [hn env h.2]
      | _ =>
          simp only [hirSubstituteExpression, exitsInLoops, Bool.and_eq_true]
          exact ⟨h.1, hn env h.2⟩
  | one i op a n ha hn =>
      intro inLoop env h
      cases op with
      | unary u =>
          simp only [exitsInLoops, Bool.and_eq_true] at h
          cases u <;> simp [hirSubstituteExpression, h.1, ha _ h.1, hn _ h.2]
      | _ =>
          simp only [exitsInLoops, Bool.and_eq_true] at h
          simp [hirSubstituteExpression, ha _ h.1, hn _ h.2]
  | two i op a b n ha hb hn =>
      intro inLoop env h
      cases op <;>
      · simp only [exitsInLoops, Bool.and_eq_true] at h
        simp [hirSubstituteExpression, h.1.1, h.1.2, ha _ h.1.1, hb _ h.1.2, hn _ h.2]
  | ifNode i c t e n hc ht he hn =>
      intro inLoop env h
      simp only [exitsInLoops, Bool.and_eq_true] at h
      simp [hirSubstituteExpression, hc _ h.1.1.1, ht _ h.1.1.2, he _ h.1.2, hn _ h.2]

theorem exitsInLoops_hirPropagate (h : Hir) : ∀ {inLoop : Bool}, exitsInLoops inLoop h = true →
    (∀ env, exitsInLoops inLoop (hirPropagateSequence h env).1 = true) ∧
    (∀ env, exitsInLoops inLoop (hirPropagateArm h env).1 = true) ∧
    exitsInLoops inLoop (hirPropagateBody h).1 = true := by
  induction h with
  | nil => intro _ h; exact ⟨fun _ => h, fun _ => h, h⟩
  | leaf i op n hn =>
      intro inLoop h
      have h' := h
      simp only [exitsInLoops, Bool.and_eq_true] at h'
      obtain ⟨hseq, harm, -⟩ := hn h'.2
      refine ⟨fun env => ?_, fun env => ?_, h⟩
      · cases op <;>
        · simp only [hirPropagateSequence, exitsInLoops, Bool.and_eq_true]
          exact ⟨h'.1, hseq _⟩
      · simp only [hirPropagateArm, exitsInLoops, Bool.and_eq_true]
        exact ⟨h'.1, harm env⟩
  | one i op a n ha hn =>
      intro inLoop h
      have hxn : exitsInLoops inLoop n = true := by
        cases op <;> simp only [exitsInLoops, Bool.and_eq_true] at h <;> exact h.2
      obtain ⟨hseq, harm, -⟩ := hn hxn
      cases op with
      | program =>
          have ha' := (Bool.and_eq_true _ _ ▸ h).1
          obtain ⟨hblock, -, -⟩ := ha ha'
          simp [hirPropagateSequence, hirPropagateArm, hirPropagateBody, hblock, hseq, harm, hxn]
      | function name names =>
          have ha' := (Bool.and_eq_true _ _ ▸ h).1
          obtain ⟨-, -, hbody⟩ := ha ha'
          simp [hirPropagateSequence, hirPropagateArm, hirPropagateBody, hbody, ha', hseq, harm, hxn]
      | _ =>
          have ha' := (Bool.and_eq_true _ _ ▸ h).1
          have hsub := fun env => exitsInLoops_hirSubstituteExpression a env ha'
          simp [hirPropagateSequence, hirPropagateArm, hirPropagateBody, hsub, ha', hseq, harm, hxn]
  | two i op a b n _ _ hn =>
      intro inLoop h
      cases op <;>
      · simp only [exitsInLoops, Bool.and_eq_true] at h
        obtain ⟨hseq, harm, -⟩ := hn h.2
        have hsuba := fun env => exitsInLoops_hirSubstituteExpression a env h.1.1
        have hsubb := fun env => exitsInLoops_hirSubstituteExpression b env h.1.2
        simp [hirPropagateSequence, hirPropagateArm, hirPropagateBody, hsuba, hsubb, h.1.1, h.1.2, h.2, hseq, harm]
  | ifNode i c t e n _ ht he hn =>
      intro inLoop h
      simp only [exitsInLoops, Bool.and_eq_true] at h
      obtain ⟨hseq, harm, -⟩ := hn h.2
      obtain ⟨-, hthen, -⟩ := ht h.1.1.2
      obtain ⟨-, helse, -⟩ := he h.1.2
      have hsub := fun env => exitsInLoops_hirSubstituteExpression c env h.1.1.1
      simp [hirPropagateSequence, hirPropagateArm, hirPropagateBody, hsub, hthen, helse, h.1.1.1,
        h.1.1.2, h.1.2, h.2, hseq, harm]

theorem exitsInLoops_hirPruneSequence (h : Hir) : ∀ {inLoop : Bool}, exitsInLoops inLoop h = true →
    exitsInLoops inLoop (hirPruneSequence h).1 = true := by
  induction h with
  | nil => intro _ h; exact h
  | leaf i op n hn =>
      intro inLoop h
      simp only [exitsInLoops, Bool.and_eq_true] at h
      simp only [hirPruneSequence]
      split
      · simp only [exitsInLoops, Bool.and_eq_true]
        exact ⟨h.1, trivial⟩
      · simp only [exitsInLoops, Bool.and_eq_true]
        exact ⟨h.1, hn h.2⟩
  | one i op a n _ hn =>
      intro inLoop h
      simp only [hirPruneSequence]
      split <;> cases op <;>
      · simp only [exitsInLoops, Bool.and_eq_true] at h ⊢
        first
          | exact ⟨h.1, hn h.2⟩
          | exact ⟨h.1, trivial⟩
  | two i op a b n _ _ hn =>
      intro inLoop h
      simp only [hirPruneSequence]
      cases op <;>
      · simp only [exitsInLoops, Bool.and_eq_true] at h ⊢
        exact ⟨h.1, hn h.2⟩
  | ifNode i c t e n _ _ _ hn =>
      intro inLoop h
      simp only [hirPruneSequence, exitsInLoops, Bool.and_eq_true] at h ⊢
      exact ⟨h.1, hn h.2⟩

theorem exitsInLoops_hirSimplifyControlFlow (h : Hir) : ∀ {inLoop : Bool}, exitsInLoops inLoop h = true →
    exitsInLoops inLoop (hirSimplifyControlFlow h).1 = true := by
  induction h with
  | nil => intro _ h; exact h
  | leaf i op n hn =>
      intro inLoop h
      simp only [hirSimplifyControlFlow, exitsInLoops, Bool.and_eq_true] at h ⊢
      exact ⟨h.1, hn h.2⟩
  | one i op a n ha hn =>
      intro inLoop h
      cases op <;>
      · simp only [hirSimplifyControlFlow, exitsInLoops, Bool.and_eq_true] at h ⊢
        first
          | exact ⟨ha h.1, hn h.2⟩
          | exact ⟨exitsInLoops_hirPruneSequence _ (ha h.1), hn h.2⟩
  | two i op a b n ha hb hn =>
      intro inLoop h
      cases op with
      | whileNode =>
          simp only [exitsInLoops, Bool.and_eq_true] at h
          simp only [hirSimplifyControlFlow]
          split
          · simp [hn h.2]
          · simp [ha h.1.1, exitsInLoops_hirPruneSequence _ (hb h.1.2), hn h.2]
      | _ =>
          simp only [hirSimplifyControlFlow, exitsInLoops, Bool.and_eq_true] at h ⊢
          exact ⟨⟨ha h.1.1, hb h.1.2⟩, hn h.2⟩
  | ifNode i c t e n hc ht he hn =>
      intro inLoop h
      simp only [exitsInLoops, Bool.and_eq_true] at h
      simp only [hirSimplifyControlFlow]
      split
      · rename_i literal _
        have harm : exitsInLoops inLoop
            (if literal then (hirSimplifyControlFlow t).1 else (hirSimplifyControlFlow e).1) = true := by
          cases literal
          · exact he h.1.2
          · exact ht h.1.1.2
        simp [exitsInLoops_hirPruneSequence _ harm, hn h.2]
      · simp [hc h.1.1.1, exitsInLoops_hirPruneSequence _ (ht h.1.1.2),
          exitsInLoops_hirPruneSequence _ (he h.1.2), hn h.2]

theorem exitsInLoops_optimizeRounds (f : FloatUnit) (k : Nat) : ∀ {root : Hir}, exitsInLoops false root = true →
    exitsInLoops false (optimizeRounds f k root) = true := by
  have round : ∀ {root : Hir}, exitsInLoops false root = true →
      exitsInLoops false (optimizeRound f root).1 = true := by
    intro root h
    have hfold := exitsInLoops_hirFoldNode f root h
    have hprop : exitsInLoops false (propagateRoot (hirFoldNode f root).1).1 = true := by
      generalize (hirFoldNode f root).1 = folded at hfold
      unfold propagateRoot
      split
      · simp only [exitsInLoops, Bool.and_eq_true] at hfold ⊢
        exact ⟨(exitsInLoops_hirPropagate _ hfold.1).1 [], hfold.2⟩
      · exact hfold
    exact exitsInLoops_hirSimplifyControlFlow _ (exitsInLoops_hirFoldNode f _ hprop)
  induction k with
  | zero => intro root h; exact h
  | succ k ih =>
      intro root h
      simp only [optimizeRounds]
      split
      · exact round h
      · exact ih (round h)

/-! ## Which programs get a graph -/

/-- What reaches `vnt_cfg_build` is valid, with every `break` and `continue` inside a loop. -/
theorem cfgReady_of_accepted {f : FloatUnit} {ast : AstNode} {ir ir' : Hir} (hs : programShape ast = true)
    (h : frontHalf f ast = some (ir, ir')) : vntIrValidate ir' = true ∧ exitsInLoops false ir' = true := by
  obtain ⟨ast', hcheck, hlower, hopt⟩ := frontHalf_eq_some.mp h
  obtain ⟨statements, next, tc, tc', statements', rfl, hc, hst, rfl⟩ := vntTypecheck_ok hcheck
  obtain ⟨a, ha, rfl, -⟩ := vntIrLower_ok hlower
  have hshape : statementShape statements = true := by
    unfold programShape at hs
    split at hs
    · rename_i heq
      cases heq
      exact hs
    · cases hs
  have hlowered : exitsInLoops false (.one 0 .program a .nil) = true := by
    have htc := collectDeclarations_ok statements hc
    have hzero : tc.loopDepth = 0 := by rw [htc]; rfl
    have hin := @Checked.inLoops _ _ _ _ hst false (fun hne => absurd hzero hne) hshape
    rw [← exitsInLoops_outline, ← ha, exitsInLoops_outline] at hin
    simp [hin]
  unfold vntIrOptimize at hopt
  split at hopt
  · simp only at hopt
    split at hopt
    · rename_i hv
      cases hopt
      refine ⟨hv, ?_⟩
      rw [← exitsInLoops_outline, Hir.outline_number, exitsInLoops_outline]
      exact exitsInLoops_optimizeRounds f 8 hlowered
    · cases hopt
  · cases hopt

/-- **A control-flow graph is built exactly if something in the program can finish**: for every tree the
    parser can build and the checker, the lowering and the optimizer accept, `vnt_cfg_build` succeeds if and
    only if the optimized top level or some function can run to its end or to a `return`. -/
theorem vntCfgBuild_accepts_iff (f : FloatUnit) (ast : AstNode) (ir ir' : Hir) (hs : programShape ast = true)
    (h : frontHalf f ast = some (ir, ir')) : (vntCfgBuild ir').isSome = true ↔ canFinish ir' = true := by
  obtain ⟨hv, hx⟩ := cfgReady_of_accepted hs h
  exact vntCfgBuild_isSome_iff hv hx

/-- `n = 3  while n > 0 { n = n - 1  if n == 1 { break } }` -/
def countdown : AstNode :=
  .one .program
    (.one (.variableDeclaration "n" none false) (.leaf (.integerLiteral 3) .null)
      (.two .whileStatement
        (.two (.binaryExpression .greater) (.leaf (.variable "n") .null) (.leaf (.integerLiteral 0) .null) .null)
        (.one (.variableDeclaration "n" none false)
          (.two (.binaryExpression .subtract) (.leaf (.variable "n") .null) (.leaf (.integerLiteral 1) .null)
            .null)
          (.ifStatement
            (.two (.binaryExpression .equal) (.leaf (.variable "n") .null) (.leaf (.integerLiteral 1) .null)
              .null)
            (.leaf .breakStatement .null) .null .null))
        .null))
    .null

/-- Its HIR before and after optimization. -/
def countdownIr : Hir × Hir := ((frontHalf noFloats countdown).getD (.nil, .nil))

/-- `while true { print("tick") }` -/
def endlessLoop : AstNode :=
  .one .program
    (.two .whileStatement (.leaf (.booleanLiteral true) .null)
      (.one .printStatement (.leaf (.stringLiteral "tick") .null) .null) .null)
    .null

/-- What the stages in front of the graph make of the two programs, and that one of them gets none. -/
theorem loops_compiled : programShape countdown = true ∧ programShape endlessLoop = true ∧
    frontHalf noFloats countdown = some (countdownIr.1, countdownIr.2) ∧
    (frontHalf noFloats endlessLoop).any (fun p => (vntCfgBuild p.2).isNone) = true := by
  decide +kernel

theorem countdown_accepted : programShape countdown = true ∧
    frontHalf noFloats countdown = some (countdownIr.1, countdownIr.2) ∧
    ((vntCfgBuild countdownIr.2).isSome = true ↔ canFinish countdownIr.2 = true) := by
  obtain ⟨hshape, -, hfront, -⟩ := loops_compiled
  exact ⟨hshape, hfront, vntCfgBuild_accepts_iff noFloats countdown countdownIr.1 countdownIr.2 hshape hfront⟩

/-- An endless loop is accepted by every stage before, and then gets no graph. -/
theorem endlessLoop_rejected : programShape endlessLoop = true ∧
    ∃ ir ir', frontHalf noFloats endlessLoop = some (ir, ir') ∧ vntCfgBuild ir' = none := by
  obtain ⟨-, hshape, -, hnone⟩ := loops_compiled
  obtain ⟨p, hfront, hgraph⟩ := (Option.any_eq_true _ _).mp hnone
  exact ⟨hshape, p.1, p.2, hfront, Option.isNone_iff_eq_none.mp hgraph⟩

end Vnt
