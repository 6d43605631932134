import Vnt.Ir.Optimize

/-!
# `Ir.Rewrite` — the rewrites that need no facts

Folding, control simplification and renumbering replace code by code that does the same in every state.
`SameCode ctx h h'` collects the four ways in which a parent looks at a child chain (as expressions, as
statements, as the operand of `&`, as the target of an assignment); it is a congruence, so each pass is an
induction over the tree whose only interesting cases are the rewritten nodes.
-/

namespace Vnt

open Lib

variable {H V : Type} {ctx : Ctx H V}

/-- Two chains no parent can tell apart. -/
structure SameCode (ctx : Ctx H V) (h h' : Hir) : Prop where
  evals : evals ctx h' = evals ctx h
  execs : execs ctx h' = execs ctx h
  reference : reference ctx h' = reference ctx h
  assign : ∀ v, assign ctx h' v = assign ctx h v

namespace SameCode

protected theorem refl (ctx : Ctx H V) (h : Hir) : SameCode ctx h h := ⟨rfl, rfl, rfl, fun _ => rfl⟩

protected theorem trans {h h' h'' : Hir} (p : SameCode ctx h h') (q : SameCode ctx h' h'') :
    SameCode ctx h h'' :=
  ⟨q.evals.trans p.evals, q.execs.trans p.execs, q.reference.trans p.reference,
    fun v => (q.assign v).trans (p.assign v)⟩

/-! ## Congruence -/

-- What a node does is given by the equations of the semantics.
attribute [local simp] Vnt.evals Vnt.execs

theorem leaf {i j : Nat} {op : HirLeaf} {n n' : Hir} (hn : SameCode ctx n n') :
    SameCode ctx (.leaf i op n) (.leaf j op n') where
  evals := by simp [hn.evals]
  execs := by simp [hn.execs]
  reference := by cases op <;> rfl
  assign v := by cases op <;> rfl

theorem one {i j : Nat} {op : HirOne} {a a' n n' : Hir} (ha : SameCode ctx a a')
    (hn : SameCode ctx n n') : SameCode ctx (.one i op a n) (.one j op a' n') where
  evals := by
    have he : evalOne ctx op a' (Vnt.evals ctx a') = evalOne ctx op a (Vnt.evals ctx a) := by
      rw [ha.evals]
      cases op with
      | unary u => cases u <;> simp only [evalOne, ha.reference]
      | _ => rfl
    simp [he, hn.evals]
  execs := by simp [ha.evals, ha.execs, hn.execs]
  reference := rfl
  assign v := by
    cases op with
    | member => simp only [Vnt.assign, ha.evals]
    | unary u => cases u <;> simp only [Vnt.assign, ha.evals]
    | _ => rfl

theorem two {i j : Nat} {op : HirTwo} {a a' b b' n n' : Hir} (ha : SameCode ctx a a')
    (hb : SameCode ctx b b') (hn : SameCode ctx n n') :
    SameCode ctx (.two i op a b n) (.two j op a' b' n') where
  evals := by simp [ha.evals, hb.evals, hn.evals]
  execs := by
    have he : ∀ v, Vnt.assign ctx a' v = Vnt.assign ctx a v := ha.assign
    cases op <;> simp [execTwo, ha.evals, hb.evals, hb.execs, hn.execs, he]
  reference := rfl
  assign v := by
    cases op with
    | index => simp only [Vnt.assign, ha.evals, hb.evals]
    | _ => rfl

/-- Statement groups are seen only as whole sequences. -/
theorem ifNode {i j : Nat} {c c' t t' e e' n n' : Hir} (hc : SameCode ctx c c')
    (ht : runSeq (Vnt.execs ctx t') = runSeq (Vnt.execs ctx t))
    (he : runSeq (Vnt.execs ctx e') = runSeq (Vnt.execs ctx e)) (hn : SameCode ctx n n') :
    SameCode ctx (.ifNode i c t e n) (.ifNode j c' t' e' n') where
  evals := by simp [hn.evals]
  execs := by simp [hc.evals, ht, he, hn.execs]
  reference := rfl
  assign _ := rfl

theorem whileNode {i j : Nat} {c c' b b' n n' : Hir} (hc : SameCode ctx c c')
    (hb : runSeq (Vnt.execs ctx b') = runSeq (Vnt.execs ctx b)) (hn : SameCode ctx n n') :
    SameCode ctx (.two i .whileNode c b n) (.two j .whileNode c' b' n') where
  evals := by simp [evalTwo, hn.evals]
  execs := by simp [execTwo, hc.evals, hb, hn.execs]
  reference := rfl
  assign _ := rfl

theorem program {i j : Nat} {a a' n n' : Hir}
    (ha : runSeq (Vnt.execs ctx a') = runSeq (Vnt.execs ctx a)) (hn : SameCode ctx n n') :
    SameCode ctx (.one i .program a n) (.one j .program a' n') where
  evals := by simp [evalOne, hn.evals]
  execs := by simp [execOne, ha, hn.execs]
  reference := rfl
  assign _ := rfl

/-- A function body is not run where the function stands. -/
theorem function {i j : Nat} {f : String} {names : List String} {a a' n n' : Hir}
    (hn : SameCode ctx n n') :
    SameCode ctx (.one i (.function f names) a n) (.one j (.function f names) a' n') where
  evals := by simp [evalOne, hn.evals]
  execs := by simp [execOne, hn.execs]
  reference := rfl
  assign _ := rfl

end SameCode

/-! ## Renumbering -/

theorem sameCode_number (ctx : Ctx H V) (h : Hir) : ∀ k, SameCode ctx h (h.number k) := by
  induction h with
  | nil => exact fun _ => SameCode.refl ctx .nil
  | leaf i op n hn => exact fun k => (hn _).leaf
  | one i op a n ha hn => exact fun k => (ha _).one (hn _)
  | two i op a b n ha hb hn => exact fun k => (ha _).two (hb _) (hn _)
  | ifNode i c t e n hc ht he hn =>
      exact fun k => (hc _).ifNode (by rw [(ht _).execs]) (by rw [(he _).execs]) (hn _)

/-! ## Folding -/

/-- The value of a constant. -/
def HirConstant.toValue : HirConstant → Value V
  | .integer v => .int v
  | .boolean b => .bool b
  | .float v => .float v

@[simp] theorem evalLeaf_toLeaf (c : HirConstant) : evalLeaf ctx c.toLeaf = pure c.toValue := by
  cases c <;> rfl

theorem first_evals_of_hirConstant {h : Hir} {c : HirConstant} (hc : hirConstant h = some c) :
    first (evals ctx h) = pure c.toValue := by
  unfold hirConstant at hc
  split at hc <;> simp_all <;> subst hc <;> rfl

theorem intResult_of_map {m : String} {r : Option Int64} {c : HirConstant}
    (hr : r.map HirConstant.integer = some c) : intResult m r = (pure c.toValue : M H V (Value V)) := by
  cases r with
  | none => exact absurd hr (by simp)
  | some z => cases hr; rfl

theorem unaryValue_of_foldUnary {u : UnaryOperator} {x c : HirConstant}
    (hf : foldUnary ctx.host.float u x = some c) :
    unaryValue ctx.host u x.toValue = (pure c.toValue : M H V (Value V)) := by
  cases u <;> cases x <;> simp only [foldUnary] at hf
  all_goals first | contradiction | skip
  · cases hf; rfl
  · exact intResult_of_map hf
  · split at hf
    · cases hf; rfl
    · exact absurd hf (by simp)

/-- The rewritten unary node leaves the value its code left. -/
theorem evalOne_of_foldOne {op : HirOne} {a : Hir} {c : HirConstant}
    (hf : foldOne ctx.host.float op a = some c) :
    evalOne ctx op a (evals ctx a) = pure c.toValue := by
  cases op with
  | unary u =>
      obtain ⟨x, hx, hu⟩ := Option.bind_eq_some_iff.mp hf
      have hv : (do let v ← first (evals ctx a); unaryValue ctx.host u v) = pure c.toValue := by
        rw [first_evals_of_hirConstant hx, pure_bind, unaryValue_of_foldUnary hu]
      cases u with
      | not => exact hv
      | negate => exact hv
      | reference => simp [foldUnary] at hu
      | dereference => simp [foldUnary] at hu
  | _ => simp [foldOne] at hf

theorem intBinary_of_foldIntegers {op : BinaryOperator} {x y : Int64} {c : HirConstant}
    (hf : foldIntegers op x y = some c) : intBinary op x y = (pure c.toValue : M H V (Value V)) := by
  have hd : ∀ {r : Option Int64}, (y = 0 → r = none) → r.map HirConstant.integer = some c → ¬ y = 0 := by
    intro r h0 hr h
    simp [h0 h] at hr
  cases op <;> simp only [foldIntegers] at hf
  all_goals first
    | contradiction
    | (cases hf; rfl)
    | skip
  · exact intResult_of_map hf
  · exact intResult_of_map hf
  · exact intResult_of_map hf
  · simp only [intBinary, if_neg (hd (fun h => by simp [checkedDiv, h]) hf), intResult_of_map hf]
  · simp only [intBinary, if_neg (hd (fun h => by simp [checkedMod, h]) hf), intResult_of_map hf]

theorem floatBinary_of_foldFloats {f : FloatUnit} {op : BinaryOperator} {x y : Double} {c : HirConstant}
    (hf : foldFloats f op x y = some c) :
    floatBinary f op x y = (pure c.toValue : M H V (Value V)) := by
  have hz : ∀ {z : Double}, finiteFloat f z = some c →
      (pure (.float z) : M H V (Value V)) = pure c.toValue := by
    intro z hr
    unfold finiteFloat at hr
    split at hr
    · cases hr; rfl
    · exact absurd hr (by simp)
  cases op <;> simp only [foldFloats] at hf
  all_goals first
    | contradiction
    | (cases hf; rfl)
    | exact hz hf
    | skip
  split at hf
  · exact absurd hf (by simp)
  · rename_i hy
    simp only [floatBinary, hy, hz hf]
    rfl

/-- The rewritten binary node leaves the value its code left. -/
theorem evalTwo_of_foldTwo {op : HirTwo} {a b : Hir} {c : HirConstant}
    (hf : foldTwo ctx.host.float op a b = some c) :
    evalTwo ctx op (first (evals ctx a)) (first (evals ctx b)) = pure c.toValue := by
  cases op with
  | binary u =>
      obtain ⟨x, hx, hb⟩ := Option.bind_eq_some_iff.mp hf
      obtain ⟨y, hy, hc⟩ := Option.bind_eq_some_iff.mp hb
      clear hf hb
      rw [first_evals_of_hirConstant hx, first_evals_of_hirConstant hy]
      cases x <;> cases y <;> simp only [foldBinary] at hc
      all_goals first | contradiction | skip
      · rw [← intBinary_of_foldIntegers hc]
        cases u <;> first | rfl | simp [foldIntegers] at hc
      · rename_i x y
        cases u <;> simp only [foldBooleans] at hc
        all_goals first | contradiction | skip
        all_goals cases hc; cases x <;> cases y <;> rfl
      · rw [← floatBinary_of_foldFloats hc]
        cases u <;> first | rfl | simp [foldFloats] at hc
  | _ => simp [foldTwo] at hf

/-- A literal in place of an operator with the same value. -/
theorem sameCode_one_literal {i j : Nat} {op : HirOne} {a n n' : Hir} {c : HirConstant}
    (hf : foldOne ctx.host.float op a = some c) (hn : SameCode ctx n n') :
    SameCode ctx (.one i op a n) (.leaf j c.toLeaf n') where
  evals := by simp only [evals, evalOne_of_foldOne hf, evalLeaf_toLeaf, hn.evals]
  execs := by
    cases op with
    | unary u => cases c <;> simp only [execs, execOne, HirConstant.toLeaf, execLeaf, hn.execs]
    | _ => simp [foldOne] at hf
  reference := by cases c <;> rfl
  assign v := by
    cases op with
    | unary u =>
        cases u with
        | dereference =>
            obtain ⟨x, hx, hu⟩ := Option.bind_eq_some_iff.mp hf
            simp [foldUnary] at hu
        | _ => cases c <;> rfl
    | _ => simp [foldOne] at hf

theorem sameCode_two_literal {i j : Nat} {op : HirTwo} {a b n n' : Hir} {c : HirConstant}
    (hf : foldTwo ctx.host.float op a b = some c) (hn : SameCode ctx n n') :
    SameCode ctx (.two i op a b n) (.leaf j c.toLeaf n') where
  evals := by simp only [evals, evalTwo_of_foldTwo hf, evalLeaf_toLeaf, hn.evals]
  execs := by
    cases op with
    | binary u => cases c <;> simp only [execs, execTwo, HirConstant.toLeaf, execLeaf, hn.execs]
    | _ => simp [foldTwo] at hf
  reference := by cases c <;> rfl
  assign v := by
    cases op with
    | binary u => cases c <;> rfl
    | _ => simp [foldTwo] at hf

/-- **Folding changes nothing.** -/
theorem sameCode_hirFoldNode (ctx : Ctx H V) (h : Hir) :
    SameCode ctx h (hirFoldNode ctx.host.float h).1 := by
  induction h with
  | nil => exact SameCode.refl ctx .nil
  | leaf i op n hn => exact hn.leaf
  | one i op a n ha hn =>
      simp only [hirFoldNode]
      split
      · rename_i c hc
        exact (ha.one (j := i) (SameCode.refl ctx n)).trans (sameCode_one_literal hc hn)
      · exact ha.one hn
  | two i op a b n ha hb hn =>
      simp only [hirFoldNode]
      split
      · rename_i c hc
        exact (ha.two (j := i) hb (SameCode.refl ctx n)).trans (sameCode_two_literal hc hn)
      · exact ha.two hb hn
  | ifNode i c t e n hc ht he hn => exact hc.ifNode (by rw [ht.execs]) (by rw [he.execs]) hn

/-! ## Control simplification -/

theorem runSeq_return (as : List (M H V (Value V))) (es ms : List (M H V (Flow V))) :
    runSeq (execOne ctx .returnNode as es :: ms) = runSeq [execOne ctx .returnNode as es] := by
  cases as with
  | nil => rfl
  | cons m as => simp only [execOne, runSeq, bind_assoc, pure_bind]

theorem runSeq_cons_congr {m : M H V (Flow V)} {ms ms' : List (M H V (Flow V))}
    (h : runSeq ms' = runSeq ms) : runSeq (m :: ms') = runSeq (m :: ms) := by
  simp only [runSeq, h]

/-- Dropping the dead tail of a sequence does not change what the sequence does. -/
theorem runSeq_hirPruneSequence (ctx : Ctx H V) (h : Hir) :
    runSeq (execs ctx (hirPruneSequence h).1) = runSeq (execs ctx h) := by
  induction h with
  | nil => rfl
  | leaf i op n hn =>
      cases hop : op.isExit with
      | false =>
          simp only [hirPruneSequence, hop]
          exact runSeq_cons_congr hn
      | true =>
          simp only [hirPruneSequence, hop, if_true]
          cases op <;> first | rfl | (simp [HirLeaf.isExit] at hop)
  | one i op a n ha hn =>
      cases hop : op.isExit with
      | false =>
          simp only [hirPruneSequence, hop]
          exact runSeq_cons_congr hn
      | true =>
          simp only [hirPruneSequence, hop, if_true]
          cases op <;> first | exact (runSeq_return _ _ _).symm | (simp [HirOne.isExit] at hop)
  | two i op a b n ha hb hn => exact runSeq_cons_congr hn
  | ifNode i c t e n hc ht he hn => exact runSeq_cons_congr hn

theorem condition_of_literalCondition {c : Hir} {b : Bool} (hc : literalCondition c = some b) :
    condition (evals ctx c) = pure b := by
  unfold literalCondition at hc
  split at hc
  · cases hc; rfl
  · exact absurd hc (by simp)

/-- An `IF` with a literal condition is the chosen arm. -/
theorem sameCode_if_literal {i j : Nat} {c t e n a : Hir} {b : Bool}
    (hc : literalCondition c = some b)
    (ha : runSeq (execs ctx a) = runSeq (execs ctx (if b then t else e))) :
    SameCode ctx (.ifNode i c t e n) (.one j .program a n) where
  evals := rfl
  execs := by
    simp only [execs, execOne, condition_of_literalCondition hc, branch, pure_bind, ha]
    cases b <;> rfl
  reference := rfl
  assign _ := rfl

/-- A loop with the literal condition `false` is nothing. -/
theorem sameCode_while_false {i j : Nat} {c b n : Hir} (hc : literalCondition c = some false) :
    SameCode ctx (.two i .whileNode c b n) (.one j .program .nil n) where
  evals := rfl
  execs := by
    simp only [execs, execOne, execTwo, condition_of_literalCondition hc]
    cases ctx.clock <;> rfl
  reference := rfl
  assign _ := rfl

/-- **Control simplification changes nothing.** -/
theorem sameCode_hirSimplifyControlFlow (ctx : Ctx H V) (h : Hir) :
    SameCode ctx h (hirSimplifyControlFlow h).1 := by
  have prune : ∀ {a a' : Hir}, SameCode ctx a a' →
      runSeq (execs ctx (hirPruneSequence a').1) = runSeq (execs ctx a) := by
    intro a a' ha
    rw [runSeq_hirPruneSequence, ha.execs]
  induction h with
  | nil => exact SameCode.refl ctx .nil
  | leaf i op n hn => exact hn.leaf
  | one i op a n ha hn =>
      cases op with
      | program => exact SameCode.program (prune ha) hn
      | function => exact SameCode.function hn
      | _ => exact ha.one hn
  | two i op a b n ha hb hn =>
      cases op with
      | whileNode =>
          simp only [hirSimplifyControlFlow]
          split
          · rename_i hc
            exact (ha.whileNode (j := i) rfl hn).trans (sameCode_while_false hc)
          · exact ha.whileNode (prune hb) hn
      | _ => exact ha.two hb hn
  | ifNode i c t e n hc ht he hn =>
      simp only [hirSimplifyControlFlow]
      split
      · rename_i b hb
        refine (hc.ifNode (j := i) (by rw [ht.execs]) (by rw [he.execs]) hn).trans (sameCode_if_literal hb ?_)
        exact runSeq_hirPruneSequence ctx _
      · exact hc.ifNode (prune ht) (prune he) hn

end Vnt
