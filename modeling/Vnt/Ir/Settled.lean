import Vnt.Ir.Optimize
import Vnt.Lib.Rounds

/-!
# `Ir.Settled` — the optimizer run on its own result

`vnt_ir_optimize` makes eight rounds at most. A pass that counts no rewrite returns the tree it was given, and every rewrite
makes the tree lighter, so the rounds are `Lib.rounds`; the copy into a fresh arena only renumbers, which no pass sees. The
result of the optimizer is a fixpoint of it if and only if the program settles within the eight rounds.
-/

namespace Vnt

open Lib

variable {f : FloatUnit}

/-! ## Rewrites are counted and make the tree lighter -/

/-- The number of nodes, with the variables counted twice. -/
@[simp] def Hir.weight : Hir → Nat
  | .nil => 0
  | .leaf _ (.variable _) n => n.weight + 2
  | .leaf _ _ n => n.weight + 1
  | .one _ _ a n => a.weight + n.weight + 1
  | .two _ _ a b n => a.weight + b.weight + n.weight + 1
  | .ifNode _ c t e n => c.weight + t.weight + e.weight + n.weight + 1

/-- A pass made `r.1` of a chain with `r.2` rewrites. -/
structure Shrunk (h : Hir) (r : Hir × Nat) : Prop where
  same : r.2 = 0 → r.1 = h
  weight : r.1.weight + r.2 ≤ h.weight
  shape : validateNodeShape h = true → validateNodeShape r.1 = true

/-- The same, and no sibling was cut off. -/
structure Rewritten (h : Hir) (r : Hir × Nat) : Prop extends Shrunk h r where
  length : r.1.length = h.length

variable {i : Nat} {h a b c t e n : Hir} {a' b' c' t' e' n' r : Hir × Nat}

theorem length_le_weight (h : Hir) : h.length ≤ h.weight := by
  induction h with
  | nil => exact Nat.le_refl 0
  | leaf i op n hn =>
      show n.length + 1 ≤ _
      cases op <;> (show _ ≤ n.weight + _; omega)
  | one i op a n _ hn =>
      show n.length + 1 ≤ a.weight + n.weight + 1
      omega
  | two i op a b n _ _ hn =>
      show n.length + 1 ≤ a.weight + b.weight + n.weight + 1
      omega
  | ifNode i c t e n _ _ _ hn =>
      show n.length + 1 ≤ c.weight + t.weight + e.weight + n.weight + 1
      omega

theorem eq_nil_of_length (hlen : h.length = 0) : h = .nil := by
  cases h with
  | nil => rfl
  | _ => cases hlen

protected theorem Shrunk.refl (h : Hir) : Shrunk h (h, 0) := ⟨fun _ => rfl, Nat.le_refl _, id⟩

protected theorem Rewritten.refl (h : Hir) : Rewritten h (h, 0) := ⟨.refl h, rfl⟩

theorem Shrunk.trans {r' : Hir × Nat} (hr : Shrunk h r) (hr' : Shrunk r.1 r') : Shrunk h (r'.1, r.2 + r'.2) where
  same hzero := by
    have hsum : r.2 + r'.2 = 0 := hzero
    show r'.1 = h
    rw [hr'.same (by omega), hr.same (by omega)]
  weight := by
    have hw := hr.weight
    have hw' := hr'.weight
    show r'.1.weight + (r.2 + r'.2) ≤ h.weight
    omega
  shape hshape := hr'.shape (hr.shape hshape)

/-! ### Congruence -/

/-- The number of children that an opcode asks for. -/
def HirOne.takes (op : HirOne) (k : Nat) : Bool :=
  match op with
  | .program | .function _ _ | .call _ | .array => true
  | .print | .returnNode | .variableDecl _ _ => k ≤ 1
  | .reassign _ _ | .member _ | .unary _ => k == 1

def HirTwo.takes (op : HirTwo) (k l : Nat) : Bool :=
  match op with
  | .whileNode => k == 1
  | .index | .assign | .binary _ => k == 1 && l == 1

theorem shape_one (op : HirOne) : validateNodeShape (.one i op a n) = true ↔
    op.takes a.length = true ∧ validateNodeShape a = true ∧ validateNodeShape n = true := by
  have heq : validateNodeShape (.one i op a n) = (op.takes a.length && validateNodeShape a && validateNodeShape n) := by
    cases op <;> rfl
  rw [heq, Bool.and_eq_true, Bool.and_eq_true, and_assoc]

theorem shape_two (op : HirTwo) : validateNodeShape (.two i op a b n) = true ↔
    op.takes a.length b.length = true ∧ validateNodeShape a = true ∧ validateNodeShape b = true ∧
      validateNodeShape n = true := by
  have heq : validateNodeShape (.two i op a b n) =
      (op.takes a.length b.length && validateNodeShape a && validateNodeShape b && validateNodeShape n) := by
    cases op <;> rfl
  rw [heq, Bool.and_eq_true, Bool.and_eq_true, Bool.and_eq_true, and_assoc, and_assoc]

theorem weight_leaf (i : Nat) (op : HirLeaf) : ∃ k, 1 ≤ k ∧ ∀ n, (Hir.leaf i op n).weight = n.weight + k := by
  cases op with
  | «variable» x => exact ⟨2, by decide, fun _ => rfl⟩
  | _ => exact ⟨1, by decide, fun _ => rfl⟩

theorem Shrunk.leaf (op : HirLeaf) (hn : Shrunk n n') : Shrunk (.leaf i op n) (.leaf i op n'.1, n'.2) where
  same hzero := by
    show Hir.leaf i op n'.1 = _
    rw [hn.same hzero]
  weight := by
    obtain ⟨k, -, hk⟩ := weight_leaf i op
    have hw := hn.weight
    show (Hir.leaf i op n'.1).weight + n'.2 ≤ (Hir.leaf i op n).weight
    rw [hk, hk]
    omega
  shape hshape := hn.shape hshape

theorem Rewritten.leaf (op : HirLeaf) (hn : Rewritten n n') : Rewritten (.leaf i op n) (.leaf i op n'.1, n'.2) where
  toShrunk := hn.toShrunk.leaf op
  length := congrArg (· + 1) hn.length

/-- A node that takes any number of children. -/
theorem Shrunk.group {op : HirOne} (hop : op = .program ∨ ∃ g names, op = .function g names) (ha : Shrunk a a')
    (hn : Shrunk n n') : Shrunk (.one i op a n) (.one i op a'.1 n'.1, a'.2 + n'.2) where
  same hzero := by
    have hsum : a'.2 + n'.2 = 0 := hzero
    show Hir.one i op a'.1 n'.1 = _
    rw [ha.same (by omega), hn.same (by omega)]
  weight := by
    have hwa := ha.weight
    have hwn := hn.weight
    show a'.1.weight + n'.1.weight + 1 + (a'.2 + n'.2) ≤ a.weight + n.weight + 1
    omega
  shape hshape := by
    obtain ⟨-, hsa, hsn⟩ := (shape_one op).mp hshape
    apply (shape_one op).mpr
    refine ⟨?_, ha.shape hsa, hn.shape hsn⟩
    rcases hop with rfl | ⟨g, names, rfl⟩ <;> rfl

theorem Shrunk.one (op : HirOne) (ha : Rewritten a a') (hn : Shrunk n n') :
    Shrunk (.one i op a n) (.one i op a'.1 n'.1, a'.2 + n'.2) where
  same hzero := by
    have hsum : a'.2 + n'.2 = 0 := hzero
    show Hir.one i op a'.1 n'.1 = _
    rw [ha.same (by omega), hn.same (by omega)]
  weight := by
    have hwa := ha.weight
    have hwn := hn.weight
    show a'.1.weight + n'.1.weight + 1 + (a'.2 + n'.2) ≤ a.weight + n.weight + 1
    omega
  shape hshape := by
    obtain ⟨htakes, hsa, hsn⟩ := (shape_one op).mp hshape
    rw [← ha.length] at htakes
    exact (shape_one op).mpr ⟨htakes, ha.shape hsa, hn.shape hsn⟩

theorem Rewritten.one (op : HirOne) (ha : Rewritten a a') (hn : Rewritten n n') :
    Rewritten (.one i op a n) (.one i op a'.1 n'.1, a'.2 + n'.2) where
  toShrunk := Shrunk.one op ha hn.toShrunk
  length := congrArg (· + 1) hn.length

theorem Shrunk.two (op : HirTwo) (ha : Rewritten a a') (hb : Rewritten b b') (hn : Shrunk n n') :
    Shrunk (.two i op a b n) (.two i op a'.1 b'.1 n'.1, a'.2 + b'.2 + n'.2) where
  same hzero := by
    have hsum : a'.2 + b'.2 + n'.2 = 0 := hzero
    show Hir.two i op a'.1 b'.1 n'.1 = _
    rw [ha.same (by omega), hb.same (by omega), hn.same (by omega)]
  weight := by
    have hwa := ha.weight
    have hwb := hb.weight
    have hwn := hn.weight
    show a'.1.weight + b'.1.weight + n'.1.weight + 1 + (a'.2 + b'.2 + n'.2) ≤ a.weight + b.weight + n.weight + 1
    omega
  shape hshape := by
    obtain ⟨htakes, hsa, hsb, hsn⟩ := (shape_two op).mp hshape
    rw [← ha.length, ← hb.length] at htakes
    exact (shape_two op).mpr ⟨htakes, ha.shape hsa, hb.shape hsb, hn.shape hsn⟩

theorem Rewritten.two (op : HirTwo) (ha : Rewritten a a') (hb : Rewritten b b') (hn : Rewritten n n') :
    Rewritten (.two i op a b n) (.two i op a'.1 b'.1 n'.1, a'.2 + b'.2 + n'.2) where
  toShrunk := Shrunk.two op ha hb hn.toShrunk
  length := congrArg (· + 1) hn.length

/-- The body of a loop may lose siblings. -/
theorem Rewritten.whileNode (ha : Rewritten a a') (hb : Shrunk b b') (hn : Rewritten n n') :
    Rewritten (.two i .whileNode a b n) (.two i .whileNode a'.1 b'.1 n'.1, a'.2 + b'.2 + n'.2) where
  same hzero := by
    have hsum : a'.2 + b'.2 + n'.2 = 0 := hzero
    show Hir.two i .whileNode a'.1 b'.1 n'.1 = _
    rw [ha.same (by omega), hb.same (by omega), hn.same (by omega)]
  weight := by
    have hwa := ha.weight
    have hwb := hb.weight
    have hwn := hn.weight
    show a'.1.weight + b'.1.weight + n'.1.weight + 1 + (a'.2 + b'.2 + n'.2) ≤ a.weight + b.weight + n.weight + 1
    omega
  shape hshape := by
    obtain ⟨htakes, hsa, hsb, hsn⟩ := (shape_two .whileNode).mp hshape
    have htakes' : HirTwo.takes .whileNode a'.1.length b'.1.length = true := by
      rw [ha.length]
      exact htakes
    exact (shape_two .whileNode).mpr ⟨htakes', ha.shape hsa, hb.shape hsb, hn.shape hsn⟩
  length := congrArg (· + 1) hn.length

/-- Both arms of an `IF` may lose siblings. -/
theorem Shrunk.ifNode (hc : Rewritten c c') (ht : Shrunk t t') (he : Shrunk e e') (hn : Shrunk n n') :
    Shrunk (.ifNode i c t e n) (.ifNode i c'.1 t'.1 e'.1 n'.1, c'.2 + t'.2 + e'.2 + n'.2) where
  same hzero := by
    have hsum : c'.2 + t'.2 + e'.2 + n'.2 = 0 := hzero
    show Hir.ifNode i c'.1 t'.1 e'.1 n'.1 = _
    rw [hc.same (by omega), ht.same (by omega), he.same (by omega), hn.same (by omega)]
  weight := by
    have hwc := hc.weight
    have hwt := ht.weight
    have hwe := he.weight
    have hwn := hn.weight
    show c'.1.weight + t'.1.weight + e'.1.weight + n'.1.weight + 1 + (c'.2 + t'.2 + e'.2 + n'.2) ≤
      c.weight + t.weight + e.weight + n.weight + 1
    omega
  shape hshape := by
    simp only [validateNodeShape, Bool.and_eq_true] at hshape ⊢
    refine ⟨⟨⟨⟨?_, hc.shape hshape.1.1.1.2⟩, ht.shape hshape.1.1.2⟩, he.shape hshape.1.2⟩, hn.shape hshape.2⟩
    rw [hc.length]
    exact hshape.1.1.1.1

theorem Rewritten.ifNode (hc : Rewritten c c') (ht : Shrunk t t') (he : Shrunk e e') (hn : Rewritten n n') :
    Rewritten (.ifNode i c t e n) (.ifNode i c'.1 t'.1 e'.1 n'.1, c'.2 + t'.2 + e'.2 + n'.2) where
  toShrunk := Shrunk.ifNode hc ht he hn.toShrunk
  length := congrArg (· + 1) hn.length

/-! ### Folding -/

theorem weight_toLeaf (k : HirConstant) (n : Hir) : (Hir.leaf i k.toLeaf n).weight = n.weight + 1 := by
  cases k <;> rfl

theorem weight_of_constant {k : HirConstant} (hk : hirConstant h = some k) : 1 ≤ h.weight := by
  cases h with
  | leaf i op n =>
      obtain ⟨m, hm, hweight⟩ := weight_leaf i op
      rw [hweight]
      omega
  | _ => cases hk

/-- A literal in place of an operator: its operands are gone. -/
theorem Rewritten.unaryLiteral {op : HirOne} {k : HirConstant} (ha : Rewritten a a') (hn : Rewritten n n')
    (hk : foldOne f op a'.1 = some k) : Rewritten (.one i op a n) (.leaf i k.toLeaf n'.1, a'.2 + 1 + n'.2) where
  same hzero := by
    have hsum : a'.2 + 1 + n'.2 = 0 := hzero
    omega
  weight := by
    have hwa := ha.weight
    have hwn := hn.weight
    have hconstant : 1 ≤ a'.1.weight := by
      cases op with
      | unary u =>
          obtain ⟨x, hx, -⟩ := Option.bind_eq_some_iff.mp hk
          exact weight_of_constant hx
      | _ => cases hk
    show (Hir.leaf i k.toLeaf n'.1).weight + (a'.2 + 1 + n'.2) ≤ a.weight + n.weight + 1
    rw [weight_toLeaf]
    omega
  shape hshape := hn.shape ((shape_one op).mp hshape).2.2
  length := congrArg (· + 1) hn.length

theorem Rewritten.binaryLiteral {op : HirTwo} {k : HirConstant} (ha : Rewritten a a') (hb : Rewritten b b')
    (hn : Rewritten n n') (hk : foldTwo f op a'.1 b'.1 = some k) :
    Rewritten (.two i op a b n) (.leaf i k.toLeaf n'.1, a'.2 + b'.2 + 1 + n'.2) where
  same hzero := by
    have hsum : a'.2 + b'.2 + 1 + n'.2 = 0 := hzero
    omega
  weight := by
    have hwa := ha.weight
    have hwb := hb.weight
    have hwn := hn.weight
    have hconstant : 1 ≤ a'.1.weight := by
      cases op with
      | binary u =>
          obtain ⟨x, hx, -⟩ := Option.bind_eq_some_iff.mp hk
          exact weight_of_constant hx
      | _ => cases hk
    show (Hir.leaf i k.toLeaf n'.1).weight + (a'.2 + b'.2 + 1 + n'.2) ≤ a.weight + b.weight + n.weight + 1
    rw [weight_toLeaf]
    omega
  shape hshape := hn.shape ((shape_two op).mp hshape).2.2.2
  length := congrArg (· + 1) hn.length

theorem hirFoldNode_rewritten (f : FloatUnit) (h : Hir) : Rewritten h (hirFoldNode f h) := by
  induction h with
  | nil => exact .refl _
  | leaf i op n hn => exact hn.leaf op
  | one i op a n ha hn =>
      rw [hirFoldNode]
      cases hk : foldOne f op (hirFoldNode f a).1 with
      | some k => exact ha.unaryLiteral hn hk
      | none => exact ha.one op hn
  | two i op a b n ha hb hn =>
      rw [hirFoldNode]
      cases hk : foldTwo f op (hirFoldNode f a).1 (hirFoldNode f b).1 with
      | some k => exact ha.binaryLiteral hb hn hk
      | none => exact ha.two op hb hn
  | ifNode i c t e n hc ht he hn => exact hc.ifNode ht.toShrunk he.toShrunk hn

/-! ### Propagation -/

/-- The tree and the count of a pass that hands facts on. -/
def counted (r : Hir × HirConstantEnvironment × Nat) : Hir × Nat := (r.1, r.2.2)

theorem Rewritten.constant {x : String} (k : HirConstant) (hn : Rewritten n n') :
    Rewritten (.leaf i (.variable x) n) (.leaf i k.toLeaf n'.1, n'.2 + 1) where
  same hzero := by
    have hsum : n'.2 + 1 = 0 := hzero
    omega
  weight := by
    have hwn := hn.weight
    show (Hir.leaf i k.toLeaf n'.1).weight + (n'.2 + 1) ≤ n.weight + 2
    rw [weight_toLeaf]
    omega
  shape hshape := hn.shape hshape
  length := congrArg (· + 1) hn.length

theorem Rewritten.keepOne (op : HirOne) (a : Hir) (hn : Rewritten n n') :
    Rewritten (.one i op a n) (.one i op a n'.1, n'.2) := by
  have hone := (Rewritten.refl a).one (i := i) op hn
  rw [Nat.zero_add] at hone
  exact hone

theorem Rewritten.keepTwo (op : HirTwo) (a b : Hir) (hn : Rewritten n n') :
    Rewritten (.two i op a b n) (.two i op a b n'.1, n'.2) := by
  have htwo := (Rewritten.refl a).two (i := i) op (.refl b) hn
  rw [Nat.zero_add, Nat.zero_add] at htwo
  exact htwo

theorem hirSubstituteExpression_rewritten (h : Hir) : ∀ env, Rewritten h (counted (hirSubstituteExpression h env)) := by
  induction h with
  | nil => exact fun _ => .refl _
  | leaf i op n hn =>
      intro env
      cases op with
      | «variable» x =>
          rw [hirSubstituteExpression]
          cases hirConstantFind env x with
          | some k => exact (hn env).constant k
          | none => exact (hn env).leaf _
      | _ => exact (hn env).leaf _
  | one i op a n ha hn =>
      intro env
      cases op with
      | unary u =>
          cases u with
          | reference => exact (hn env).keepOne _ a
          | _ => exact (ha env).one _ (hn _)
      | call g => exact (ha env).one _ (hn [])
      | _ => exact (ha env).one _ (hn _)
  | two i op a b n ha hb hn =>
      intro env
      cases op with
      | assign => exact (hn _).keepTwo _ a b
      | _ => exact (ha env).two _ (hb _) (hn _)
  | ifNode i c t e n hc ht he hn =>
      intro env
      exact (hc env).ifNode (ht _).toShrunk (he _).toShrunk (hn _)

/-- One induction for the three walks: a sequence, the arm of an `IF`, the body of a function. -/
theorem hirPropagate_rewritten (h : Hir) :
    (∀ env, Rewritten h (counted (hirPropagateSequence h env))) ∧ (∀ env, Rewritten h (hirPropagateArm h env)) ∧
      Rewritten h (hirPropagateBody h) := by
  induction h with
  | nil => exact ⟨fun _ => .refl _, fun _ => .refl _, .refl _⟩
  | leaf i op n hn =>
      refine ⟨fun env => ?_, fun env => (hn.2.1 env).leaf op, .refl _⟩
      cases op with
      | asm text v => exact (hn.1 []).leaf _
      | _ => exact (hn.1 env).leaf _
  | one i op a n ha hn =>
      refine ⟨fun env => ?_, fun env => ?_, ?_⟩
      · cases op with
        | program => exact (ha.1 env).one _ (hn.1 _)
        | function g names => exact ha.2.2.one _ (hn.1 _)
        | _ => exact (hirSubstituteExpression_rewritten a env).one _ (hn.1 _)
      · cases op with
        | program => exact (ha.1 env).one _ (hn.2.1 env)
        | _ => exact (hn.2.1 env).keepOne _ a
      · cases op with
        | program => exact (ha.1 []).one _ (.refl n)
        | _ => exact .refl _
  | two i op a b n ha hb hn =>
      refine ⟨fun env => ?_, fun env => (hn.2.1 env).keepTwo op a b, .refl _⟩
      cases op with
      | whileNode => exact (hn.1 []).keepTwo _ a b
      | assign => exact (hn.1 _).keepTwo _ a b
      | _ => exact (hirSubstituteExpression_rewritten a env).two _ (hirSubstituteExpression_rewritten b _) (hn.1 _)
  | ifNode i c t e n hc ht he hn =>
      refine ⟨fun env => ?_, fun env => ?_, .refl _⟩
      · exact (hirSubstituteExpression_rewritten c env).ifNode (ht.2.1 _).toShrunk (he.2.1 _).toShrunk (hn.1 [])
      · have hif := (Rewritten.refl c).ifNode (i := i) (.refl t) (.refl e) (hn.2.1 env)
        rw [Nat.zero_add, Nat.zero_add, Nat.zero_add] at hif
        exact hif

/-! ### Control simplification -/

/-- What stands behind an exit is cut off. -/
theorem shrunk_cut (op : HirLeaf) (n : Hir) : Shrunk (.leaf i op n) (.leaf i op .nil, n.length) where
  same hzero := by
    show Hir.leaf i op .nil = _
    rw [eq_nil_of_length hzero]
  weight := by
    obtain ⟨k, -, hk⟩ := weight_leaf i op
    have hlen := length_le_weight n
    show (Hir.leaf i op .nil).weight + n.length ≤ (Hir.leaf i op n).weight
    rw [hk, hk]
    show 0 + k + n.length ≤ n.weight + k
    omega
  shape _ := rfl

theorem shrunk_cutOne (op : HirOne) (a n : Hir) : Shrunk (.one i op a n) (.one i op a .nil, n.length) where
  same hzero := by
    show Hir.one i op a .nil = _
    rw [eq_nil_of_length hzero]
  weight := by
    have hlen := length_le_weight n
    show a.weight + 0 + 1 + n.length ≤ a.weight + n.weight + 1
    omega
  shape hshape := by
    obtain ⟨htakes, hsa, -⟩ := (shape_one op).mp hshape
    exact (shape_one op).mpr ⟨htakes, hsa, rfl⟩

theorem hirPruneSequence_shrunk (h : Hir) : Shrunk h (hirPruneSequence h) := by
  induction h with
  | nil => exact .refl _
  | leaf i op n hn =>
      rw [hirPruneSequence]
      by_cases hexit : op.isExit = true
      · rw [if_pos hexit]
        exact shrunk_cut op n
      · rw [if_neg hexit]
        exact hn.leaf op
  | one i op a n _ hn =>
      rw [hirPruneSequence]
      by_cases hexit : op.isExit = true
      · rw [if_pos hexit]
        exact shrunk_cutOne op a n
      · rw [if_neg hexit]
        have hone := Shrunk.one (i := i) op (.refl a) hn
        rw [Nat.zero_add] at hone
        exact hone
  | two i op a b n _ _ hn =>
      have htwo := Shrunk.two (i := i) op (.refl a) (.refl b) hn
      rw [Nat.zero_add, Nat.zero_add] at htwo
      exact htwo
  | ifNode i c t e n _ _ _ hn =>
      have hif := Shrunk.ifNode (i := i) (.refl c) (.refl t) (.refl e) hn
      rw [Nat.zero_add, Nat.zero_add, Nat.zero_add] at hif
      exact hif

theorem weight_of_length (hlen : h.length ≠ 0) : 1 ≤ h.weight := by
  have hle := length_le_weight h
  omega

/-- An `IF` with a literal condition becomes its arm, and loses the condition and the other arm. -/
theorem Rewritten.arm {x : Bool} {p : Hir × Nat} (hc : Rewritten c c') (ht : Rewritten t t') (he : Rewritten e e')
    (hn : Rewritten n n') (hcondition : literalCondition c'.1 = some x) (hp : Shrunk (if x then t'.1 else e'.1) p) :
    Rewritten (.ifNode i c t e n) (.one i .program p.1 n'.1, c'.2 + t'.2 + e'.2 + 1 + p.2 + n'.2) where
  same hzero := by
    have hsum : c'.2 + t'.2 + e'.2 + 1 + p.2 + n'.2 = 0 := hzero
    omega
  weight := by
    have hwc := hc.weight
    have hwt := ht.weight
    have hwe := he.weight
    have hwn := hn.weight
    have hwp := hp.weight
    have hconstant : 1 ≤ c'.1.weight := by
      apply weight_of_length
      cases hc' : c'.1 with
      | nil =>
          rw [hc'] at hcondition
          cases hcondition
      | _ => exact Nat.succ_ne_zero _
    have harm : (if x then t'.1 else e'.1).weight ≤ t'.1.weight + e'.1.weight := by
      cases x
      · exact Nat.le_add_left _ _
      · exact Nat.le_add_right _ _
    show p.1.weight + n'.1.weight + 1 + (c'.2 + t'.2 + e'.2 + 1 + p.2 + n'.2) ≤
      c.weight + t.weight + e.weight + n.weight + 1
    omega
  shape hshape := by
    simp only [validateNodeShape, Bool.and_eq_true] at hshape
    have harm : validateNodeShape (if x then t'.1 else e'.1) = true := by
      cases x
      · exact he.shape hshape.1.2
      · exact ht.shape hshape.1.1.2
    exact (shape_one .program).mpr ⟨rfl, hp.shape harm, hn.shape hshape.2⟩
  length := congrArg (· + 1) hn.length

/-- A loop that is never entered becomes an empty sequence. -/
theorem Rewritten.noLoop {x : Bool} (ha : Rewritten a a') (hb : Rewritten b b') (hn : Rewritten n n')
    (hcondition : literalCondition a'.1 = some x) :
    Rewritten (.two i .whileNode a b n) (.one i .program .nil n'.1, a'.2 + b'.2 + 1 + n'.2) where
  same hzero := by
    have hsum : a'.2 + b'.2 + 1 + n'.2 = 0 := hzero
    omega
  weight := by
    have hwa := ha.weight
    have hwb := hb.weight
    have hwn := hn.weight
    have hconstant : 1 ≤ a'.1.weight := by
      apply weight_of_length
      cases ha' : a'.1 with
      | nil =>
          rw [ha'] at hcondition
          cases hcondition
      | _ => exact Nat.succ_ne_zero _
    show 0 + n'.1.weight + 1 + (a'.2 + b'.2 + 1 + n'.2) ≤ a.weight + b.weight + n.weight + 1
    omega
  shape hshape := (shape_one .program).mpr ⟨rfl, rfl, hn.shape ((shape_two .whileNode).mp hshape).2.2.2⟩
  length := congrArg (· + 1) hn.length

theorem hirSimplifyControlFlow_rewritten (h : Hir) : Rewritten h (hirSimplifyControlFlow h) := by
  induction h with
  | nil => exact .refl _
  | leaf i op n hn => exact hn.leaf op
  | one i op a n ha hn =>
      have hpruned := ha.toShrunk.trans (hirPruneSequence_shrunk (hirSimplifyControlFlow a).1)
      have hgroup : (op = .program ∨ ∃ g names, op = .function g names) →
          Rewritten (.one i op a n) (.one i op (hirPruneSequence (hirSimplifyControlFlow a).1).1 (hirSimplifyControlFlow n).1,
            (hirSimplifyControlFlow a).2 + (hirPruneSequence (hirSimplifyControlFlow a).1).2 + (hirSimplifyControlFlow n).2) :=
        fun hop => ⟨Shrunk.group hop hpruned hn.toShrunk, congrArg (· + 1) hn.length⟩
      cases op with
      | program => exact hgroup (Or.inl rfl)
      | function g names => exact hgroup (Or.inr ⟨g, names, rfl⟩)
      | _ => exact ha.one _ hn
  | two i op a b n ha hb hn =>
      cases op with
      | whileNode =>
          rw [hirSimplifyControlFlow]
          have hloop := ha.whileNode (i := i) (hb.toShrunk.trans (hirPruneSequence_shrunk (hirSimplifyControlFlow b).1)) hn
          rw [← Nat.add_assoc] at hloop
          cases hcondition : literalCondition (hirSimplifyControlFlow a).1 with
          | none => exact hloop
          | some x =>
              cases x with
              | false => exact ha.noLoop hb hn hcondition
              | true => exact hloop
      | _ => exact ha.two _ hb hn
  | ifNode i c t e n hc ht he hn =>
      rw [hirSimplifyControlFlow]
      dsimp only
      cases hcondition : literalCondition (hirSimplifyControlFlow c).1 with
      | some x => exact hc.arm ht he hn hcondition (hirPruneSequence_shrunk _)
      | none =>
          have hif := hc.ifNode (i := i) (ht.toShrunk.trans (hirPruneSequence_shrunk (hirSimplifyControlFlow t).1))
            (he.toShrunk.trans (hirPruneSequence_shrunk (hirSimplifyControlFlow e).1)) hn
          -- the counts of the two prunings stand behind those of the three groups
          have hcount : ∀ c t p e q n : Nat, c + (t + p) + (e + q) + n = c + t + e + p + q + n := by omega
          rw [hcount] at hif
          exact hif

/-! ## A round -/

theorem propagateRoot_rewritten (h : Hir) : Rewritten h (propagateRoot h) := by
  cases h with
  | one i op a n =>
      cases op with
      | program => exact ((hirPropagate_rewritten a).1 []).one _ (.refl n)
      | _ => exact .refl _
  | _ => exact .refl _

theorem Rewritten.trans {r' : Hir × Nat} (hr : Rewritten h r) (hr' : Rewritten r.1 r') : Rewritten h (r'.1, r.2 + r'.2) :=
  ⟨hr.toShrunk.trans hr'.toShrunk, hr'.length.trans hr.length⟩

/-- **A round that counts no rewrite changes nothing, and the rewrites it counts make the tree lighter.** -/
theorem optimizeRound_rewritten (f : FloatUnit) (root : Hir) : Rewritten root (optimizeRound f root) := by
  have hfolded := hirFoldNode_rewritten f root
  have hpropagated := hfolded.trans (propagateRoot_rewritten (hirFoldNode f root).1)
  have hrefolded := hpropagated.trans (hirFoldNode_rewritten f _)
  exact hrefolded.trans (hirSimplifyControlFlow_rewritten _)

theorem optimizeRound_shrinking (f : FloatUnit) : Shrinking (optimizeRound f) Hir.weight where
  same root := (optimizeRound_rewritten f root).same
  shrinks root := (optimizeRound_rewritten f root).weight

theorem optimizeRounds_eq (f : FloatUnit) : ∀ (k : Nat) (root : Hir), optimizeRounds f k root = rounds (optimizeRound f) k root
  | 0, _ => rfl
  | k + 1, root => by
      rw [optimizeRounds, rounds, optimizeRounds_eq f k]

/-! ## Positions do not matter -/

/-- The tree without its positions. -/
@[simp] def Hir.erase : Hir → Hir
  | .nil => .nil
  | .leaf _ op n => .leaf 0 op n.erase
  | .one _ op a n => .one 0 op a.erase n.erase
  | .two _ op a b n => .two 0 op a.erase b.erase n.erase
  | .ifNode _ c t e n => .ifNode 0 c.erase t.erase e.erase n.erase

/-- What a pass makes of the tree without positions. -/
def erased (r : Hir × Nat) : Hir × Nat := (r.1.erase, r.2)

theorem erase_number (h : Hir) : ∀ k, (h.number k).erase = h.erase := by
  induction h with
  | nil => exact fun _ => rfl
  | leaf i op n hn =>
      intro k
      rw [Hir.number, Hir.erase, hn, Hir.erase]
  | one i op a n ha hn =>
      intro k
      rw [Hir.number, Hir.erase, ha, hn, Hir.erase]
  | two i op a b n ha hb hn =>
      intro k
      rw [Hir.number, Hir.erase, ha, hb, hn, Hir.erase]
  | ifNode i c t e n hc ht he hn =>
      intro k
      rw [Hir.number, Hir.erase, hc, ht, he, hn, Hir.erase]

theorem size_erase (h : Hir) : h.erase.size = h.size := by
  induction h with
  | nil => rfl
  | leaf i op n hn => rw [Hir.erase, Hir.size, Hir.size, hn]
  | one i op a n ha hn => rw [Hir.erase, Hir.size, Hir.size, ha, hn]
  | two i op a b n ha hb hn => rw [Hir.erase, Hir.size, Hir.size, ha, hb, hn]
  | ifNode i c t e n hc ht he hn => rw [Hir.erase, Hir.size, Hir.size, hc, ht, he, hn]

theorem number_erase (h : Hir) : ∀ k, h.erase.number k = h.number k := by
  induction h with
  | nil => exact fun _ => rfl
  | leaf i op n hn =>
      intro k
      rw [Hir.erase, Hir.number, hn, Hir.number]
  | one i op a n ha hn =>
      intro k
      rw [Hir.erase, Hir.number, ha, hn, size_erase, Hir.number]
  | two i op a b n ha hb hn =>
      intro k
      rw [Hir.erase, Hir.number, ha, hb, hn, size_erase, size_erase, Hir.number]
  | ifNode i c t e n hc ht he hn =>
      intro k
      rw [Hir.erase, Hir.number, hc, ht, he, hn, size_erase, size_erase, size_erase, Hir.number]

theorem weight_erase (h : Hir) : h.erase.weight = h.weight := by
  induction h with
  | nil => rfl
  | leaf i op n hn =>
      cases op with
      | «variable» x => rw [Hir.erase, Hir.weight, Hir.weight, hn]
      | _ => exact congrArg (· + 1) hn
  | one i op a n ha hn => rw [Hir.erase, Hir.weight, Hir.weight, ha, hn]
  | two i op a b n ha hb hn => rw [Hir.erase, Hir.weight, Hir.weight, ha, hb, hn]
  | ifNode i c t e n hc ht he hn => rw [Hir.erase, Hir.weight, Hir.weight, hc, ht, he, hn]

theorem length_erase (h : Hir) : h.erase.length = h.length := by
  induction h with
  | nil => rfl
  | _ => exact congrArg (· + 1) ‹_›

theorem shape_erase (h : Hir) : validateNodeShape h.erase = validateNodeShape h := by
  induction h with
  | nil => rfl
  | leaf i op n hn => exact hn
  | one i op a n ha hn =>
      rw [Bool.eq_iff_iff, Hir.erase, shape_one, shape_one, length_erase, ha, hn]
  | two i op a b n ha hb hn =>
      rw [Bool.eq_iff_iff, Hir.erase, shape_two, shape_two, length_erase, length_erase, ha, hb, hn]
  | ifNode i c t e n hc ht he hn =>
      simp only [Hir.erase, validateNodeShape, length_erase, hc, ht, he, hn]

theorem hirConstant_erase (h : Hir) : hirConstant h.erase = hirConstant h := by
  cases h with
  | leaf i op n => cases op <;> rfl
  | _ => rfl

theorem hirFoldNode_erase (f : FloatUnit) (h : Hir) : hirFoldNode f h.erase = erased (hirFoldNode f h) := by
  induction h with
  | nil => rfl
  | leaf i op n hn =>
      rw [Hir.erase, hirFoldNode, hn]
      rfl
  | one i op a n ha hn =>
      have hfold : foldOne f op (hirFoldNode f a).1.erase = foldOne f op (hirFoldNode f a).1 := by
        cases op <;> simp only [foldOne, hirConstant_erase]
      rw [Hir.erase, hirFoldNode, hirFoldNode, ha, hn]
      dsimp only [erased]
      rw [hfold]
      cases foldOne f op (hirFoldNode f a).1 <;> rfl
  | two i op a b n ha hb hn =>
      have hfold : foldTwo f op (hirFoldNode f a).1.erase (hirFoldNode f b).1.erase =
          foldTwo f op (hirFoldNode f a).1 (hirFoldNode f b).1 := by
        cases op <;> simp only [foldTwo, hirConstant_erase]
      rw [Hir.erase, hirFoldNode, hirFoldNode, ha, hb, hn]
      dsimp only [erased]
      rw [hfold]
      cases foldTwo f op (hirFoldNode f a).1 (hirFoldNode f b).1 <;> rfl
  | ifNode i c t e n hc ht he hn =>
      rw [Hir.erase, hirFoldNode, hc, ht, he, hn]
      rfl

theorem hirPruneSequence_erase (h : Hir) : hirPruneSequence h.erase = erased (hirPruneSequence h) := by
  induction h with
  | nil => rfl
  | leaf i op n hn =>
      rw [Hir.erase, hirPruneSequence, hirPruneSequence, hn, length_erase]
      cases op.isExit <;> rfl
  | one i op a n _ hn =>
      rw [Hir.erase, hirPruneSequence, hirPruneSequence, hn, length_erase]
      cases op.isExit <;> rfl
  | two i op a b n _ _ hn =>
      rw [Hir.erase, hirPruneSequence, hn]
      rfl
  | ifNode i c t e n _ _ _ hn =>
      rw [Hir.erase, hirPruneSequence, hn]
      rfl

theorem literalCondition_erase (h : Hir) : literalCondition h.erase = literalCondition h := by
  cases h with
  | leaf i op n => cases op <;> rfl
  | _ => rfl

theorem hirSimplifyControlFlow_erase (h : Hir) :
    hirSimplifyControlFlow h.erase = erased (hirSimplifyControlFlow h) := by
  induction h with
  | nil => rfl
  | leaf i op n hn =>
      rw [Hir.erase, hirSimplifyControlFlow, hn]
      rfl
  | one i op a n ha hn =>
      have hprune := hirPruneSequence_erase (hirSimplifyControlFlow a).1
      cases op with
      | program =>
          rw [Hir.erase, hirSimplifyControlFlow, ha, hn]
          dsimp only [erased]
          rw [hprune]
          rfl
      | function g names =>
          rw [Hir.erase, hirSimplifyControlFlow, ha, hn]
          dsimp only [erased]
          rw [hprune]
          rfl
      | _ =>
          simp only [Hir.erase, hirSimplifyControlFlow, ha, hn]
          rfl
  | two i op a b n ha hb hn =>
      have hprune := hirPruneSequence_erase (hirSimplifyControlFlow b).1
      cases op with
      | whileNode =>
          rw [Hir.erase, hirSimplifyControlFlow, hirSimplifyControlFlow, ha, hb, hn]
          dsimp only [erased]
          rw [hprune, literalCondition_erase]
          cases literalCondition (hirSimplifyControlFlow a).1 with
          | none => rfl
          | some x => cases x <;> rfl
      | _ =>
          simp only [Hir.erase, hirSimplifyControlFlow, ha, hb, hn]
          rfl
  | ifNode i c t e n hc ht he hn =>
      have hthen := hirPruneSequence_erase (hirSimplifyControlFlow t).1
      have helse := hirPruneSequence_erase (hirSimplifyControlFlow e).1
      rw [Hir.erase, hirSimplifyControlFlow, hirSimplifyControlFlow, hc, ht, he, hn]
      dsimp only [erased]
      rw [hthen, helse, literalCondition_erase]
      cases literalCondition (hirSimplifyControlFlow c).1 with
      | none => rfl
      | some x =>
          cases x with
          | false =>
              dsimp only
              rw [if_neg Bool.false_ne_true, if_neg Bool.false_ne_true, helse]
              rfl
          | true =>
              dsimp only
              rw [if_pos rfl, if_pos rfl, hthen]
              rfl

theorem hirContainsCall_erase (h : Hir) : hirContainsCall h.erase = hirContainsCall h := by
  induction h with
  | nil => rfl
  | leaf i op n hn => exact hn
  | one i op a n ha hn =>
      cases op with
      | call g => rfl
      | _ => simp only [Hir.erase, hirContainsCall, ha, hn]
  | two i op a b n ha hb hn => simp only [Hir.erase, hirContainsCall, ha, hb, hn]
  | ifNode i c t e n hc ht he hn => simp only [Hir.erase, hirContainsCall, hc, ht, he, hn]

theorem envAfterWrite_erase (target : Hir) (env : HirConstantEnvironment) :
    envAfterWrite target.erase env = envAfterWrite target env := by
  cases target with
  | leaf i op n => cases op <;> rfl
  | _ => rfl

theorem envAfterOne_erase (op : HirOne) (a : Hir) (env : HirConstantEnvironment) :
    envAfterOne op a.erase env = envAfterOne op a env := by
  have hcall := hirContainsCall_erase (.one 0 op a .nil)
  unfold envAfterOne
  rw [show hirContainsCall (.one 0 op a.erase .nil) = hirContainsCall (.one 0 op a .nil) from hcall]
  cases op <;> simp only [envAfterStore, hirConstant_erase]

theorem envAfterTwo_erase (op : HirTwo) (a b : Hir) (env : HirConstantEnvironment) :
    envAfterTwo op a.erase b.erase env = envAfterTwo op a b env := by
  have hcall := hirContainsCall_erase (.two 0 op a b .nil)
  unfold envAfterTwo
  rw [show hirContainsCall (.two 0 op a.erase b.erase .nil) = hirContainsCall (.two 0 op a b .nil) from hcall]
  cases op <;> simp only [envAfterWrite_erase]

/-- The same for a pass that hands facts on. -/
def erasedFacts (r : Hir × HirConstantEnvironment × Nat) : Hir × HirConstantEnvironment × Nat := (r.1.erase, r.2)

theorem hirSubstituteExpression_erase (h : Hir) : ∀ env,
    hirSubstituteExpression h.erase env = erasedFacts (hirSubstituteExpression h env) := by
  induction h with
  | nil => exact fun _ => rfl
  | leaf i op n hn =>
      intro env
      cases op with
      | «variable» x =>
          rw [Hir.erase, hirSubstituteExpression, hirSubstituteExpression, hn]
          cases hirConstantFind env x <;> rfl
      | _ =>
          simp only [Hir.erase, hirSubstituteExpression, hn]
          rfl
  | one i op a n ha hn =>
      intro env
      cases op with
      | unary u =>
          cases u with
          | reference =>
              rw [Hir.erase, hirSubstituteExpression, hn]
              rfl
          | _ =>
              simp only [Hir.erase, hirSubstituteExpression, ha, erasedFacts, hn]
      | _ => simp only [Hir.erase, hirSubstituteExpression, ha, erasedFacts, hn]
  | two i op a b n ha hb hn =>
      intro env
      cases op with
      | assign => simp only [Hir.erase, hirSubstituteExpression, envAfterWrite_erase, hn, erasedFacts]
      | _ => simp only [Hir.erase, hirSubstituteExpression, ha, hb, hn, erasedFacts]
  | ifNode i c t e n hc ht he hn =>
      intro env
      simp only [Hir.erase, hirSubstituteExpression, hc, ht, he, hn, erasedFacts]

theorem hirPropagate_erase (h : Hir) :
    (∀ env, hirPropagateSequence h.erase env = erasedFacts (hirPropagateSequence h env)) ∧
      (∀ env, hirPropagateArm h.erase env = erased (hirPropagateArm h env)) ∧
      hirPropagateBody h.erase = erased (hirPropagateBody h) := by
  induction h with
  | nil => exact ⟨fun _ => rfl, fun _ => rfl, rfl⟩
  | leaf i op n hn =>
      refine ⟨fun env => ?_, fun env => ?_, rfl⟩
      · cases op <;> simp only [Hir.erase, hirPropagateSequence, hn.1, erasedFacts]
      · simp only [Hir.erase, hirPropagateArm, hn.2.1, erased]
  | one i op a n ha hn =>
      refine ⟨fun env => ?_, fun env => ?_, ?_⟩
      · cases op <;> simp only [Hir.erase, hirPropagateSequence, hirSubstituteExpression_erase, ha.1, ha.2.2, hn.1,
          envAfterOne_erase, erasedFacts, erased]
      · cases op <;> simp only [Hir.erase, hirPropagateArm, ha.1, hn.2.1, erasedFacts, erased]
      · cases op <;> simp only [Hir.erase, hirPropagateBody, ha.1, erasedFacts, erased]
  | two i op a b n ha hb hn =>
      refine ⟨fun env => ?_, fun env => ?_, rfl⟩
      · cases op <;> simp only [Hir.erase, hirPropagateSequence, hirSubstituteExpression_erase, hn.1,
          envAfterTwo_erase, erasedFacts]
      · simp only [Hir.erase, hirPropagateArm, hn.2.1, erased]
  | ifNode i c t e n hc ht he hn =>
      refine ⟨fun env => ?_, fun env => ?_, rfl⟩
      · simp only [Hir.erase, hirPropagateSequence, hirSubstituteExpression_erase, ht.2.1, he.2.1, hn.1, erasedFacts, erased]
      · simp only [Hir.erase, hirPropagateArm, hn.2.1, erased]

theorem propagateRoot_erase (h : Hir) : propagateRoot h.erase = erased (propagateRoot h) := by
  cases h with
  | one i op a n =>
      cases op <;> simp only [Hir.erase, propagateRoot, (hirPropagate_erase a).1, erasedFacts, erased]
  | _ => rfl

/-- **A round does not see positions.** -/
theorem optimizeRound_erase (f : FloatUnit) (root : Hir) : optimizeRound f root.erase = erased (optimizeRound f root) := by
  simp only [optimizeRound, hirFoldNode_erase, propagateRoot_erase, hirSimplifyControlFlow_erase, erased]

/-- Renumbering is no rewrite, and hides none. -/
theorem optimizeRound_number (f : FloatUnit) (root : Hir) (k : Nat) :
    (optimizeRound f (root.number k)).2 = (optimizeRound f root).2 := by
  have hnumber := congrArg Prod.snd (optimizeRound_erase f (root.number k))
  have hroot := congrArg Prod.snd (optimizeRound_erase f root)
  rw [erase_number] at hnumber
  exact hnumber.symm.trans hroot

theorem number_number (h : Hir) (k l : Nat) : (h.number k).number l = h.number l := by
  rw [← number_erase (h.number k) l, erase_number, number_erase]

theorem weight_number (h : Hir) (k : Nat) : (h.number k).weight = h.weight := by
  rw [← weight_erase (h.number k), erase_number, weight_erase]

/-! ## The optimizer on its own result -/

theorem optimizeRound_valid {root : Hir} (h : vntIrValidate root = true) : vntIrValidate (optimizeRound f root).1 = true := by
  have hrewritten := optimizeRound_rewritten f root
  cases root with
  | one i op a n =>
      cases op with
      | program =>
          cases n with
          | nil =>
              obtain ⟨a', ha'⟩ : ∃ a', (optimizeRound f (.one i .program a .nil)).1 = .one i .program a' .nil := ⟨_, rfl⟩
              have hshape := hrewritten.shape ((shape_one .program).mpr ⟨rfl, h, rfl⟩)
              rw [ha'] at hshape ⊢
              exact ((shape_one .program).mp hshape).2.1
          | _ => cases h
      | _ => cases h
  | _ => cases h

theorem rounds_valid : ∀ (k : Nat) {root : Hir}, vntIrValidate root = true →
    vntIrValidate (rounds (optimizeRound f) k root) = true
  | 0, _, h => h
  | k + 1, root, h => by
      by_cases hzero : (optimizeRound f root).2 = 0
      · rw [rounds_of_zero (optimizeRound_shrinking f) hzero]
        exact h
      · rw [rounds_succ hzero]
        exact rounds_valid k (optimizeRound_valid h)

theorem vntIrValidate_number {root : Hir} (h : vntIrValidate root = true) (k : Nat) : vntIrValidate (root.number k) = true := by
  cases root with
  | one i op a n =>
      cases op with
      | program =>
          cases n with
          | nil =>
              show validateNodeShape (a.number (k + 1)) = true
              rw [← shape_erase, erase_number, shape_erase]
              exact h
          | _ => cases h
      | _ => cases h
  | _ => cases h

/-- What the optimizer makes of a valid program. -/
theorem vntIrOptimize_eq {ir : Hir} (h : vntIrValidate ir = true) :
    vntIrOptimize f ir = some ((rounds (optimizeRound f) 8 ir).number 0) := by
  have hvalid := vntIrValidate_number (rounds_valid (f := f) 8 h) 0
  unfold vntIrOptimize
  rw [if_pos h, optimizeRounds_eq]
  dsimp only
  rw [if_pos hvalid]

/-- Doubles for programs without any. -/
def noDoubles : FloatUnit where
  add x _ := x
  sub x _ := x
  mul x _ := x
  div x _ := x
  neg x := x
  eq x y := x == y
  lt _ _ := false
  le x y := x == y
  isZero _ := false
  isFinite _ := true

/-- `y = x + 1` for each name and the one before it. -/
def dependentChain : String → List String → Hir
  | _, [] => .nil
  | x, y :: rest =>
      .one 0 (.variableDecl y none)
        (.two 0 (.binary .add) (.leaf 0 (.variable x) .nil) (.leaf 0 (.integer 1) .nil) .nil) (dependentChain y rest)

/-- `a = 1`, and the chain behind it. -/
def chainProgram (names : List String) : Hir :=
  .one 0 .program (.one 0 (.variableDecl "a" none) (.leaf 0 (.integer 1) .nil) (dependentChain "a" names)) .nil

end Vnt
