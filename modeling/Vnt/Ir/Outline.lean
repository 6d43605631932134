import Vnt.Ir.Lower

/-!
# `Ir.Outline` — what name resolution leaves alone

The resolver writes storage keys over names and touches nothing else. `Hir.skeleton` forgets the names, and
resolution keeps it; `Hir.outline` forgets the arena positions too, and survives renumbering as well.
-/

namespace Vnt

def HirLeaf.outline : HirLeaf → HirLeaf
  | .variable _ => .variable ""
  | op => op

def HirOne.outline : HirOne → HirOne
  | .function f _ => .function f []
  | .variableDecl _ t => .variableDecl "" t
  | .reassign _ t => .reassign "" t
  | op => op

/-- The tree without variable names and positions. -/
@[simp] def Hir.outline : Hir → Hir
  | .nil => .nil
  | .leaf _ op n => .leaf 0 op.outline n.outline
  | .one _ op a n => .one 0 op.outline a.outline n.outline
  | .two _ op a b n => .two 0 op a.outline b.outline n.outline
  | .ifNode _ c t e n => .ifNode 0 c.outline t.outline e.outline n.outline

/-- The tree without variable names. -/
@[simp] def Hir.skeleton : Hir → Hir
  | .nil => .nil
  | .leaf i op n => .leaf i op.outline n.skeleton
  | .one i op a n => .one i op.outline a.skeleton n.skeleton
  | .two i op a b n => .two i op a.skeleton b.skeleton n.skeleton
  | .ifNode i c t e n => .ifNode i c.skeleton t.skeleton e.skeleton n.skeleton

theorem HirLeaf.outline_outline (op : HirLeaf) : op.outline.outline = op.outline := by
  cases op <;> rfl

theorem HirOne.outline_outline (op : HirOne) : op.outline.outline = op.outline := by
  cases op <;> rfl

theorem Hir.outline_skeleton (h : Hir) : h.skeleton.outline = h.outline := by
  induction h <;> simp_all [HirLeaf.outline_outline, HirOne.outline_outline]

theorem Hir.outline_number (h : Hir) : ∀ k, (h.number k).outline = h.outline := by
  induction h <;> simp_all

/-! ## Resolution keeps the skeleton -/

theorem Hir.skeleton_append (h h' : Hir) : (h.append h').skeleton = h.skeleton.append h'.skeleton := by
  induction h <;> simp_all [Hir.append]

theorem skeleton_resolverBindExpr (h : Hir) : ∀ {r : HirResolver} {p : Hir × HirResolver},
    resolverBindExpr h r = some p → p.1.skeleton = h.skeleton := by
  induction h with
  | nil => intro r p hp; cases hp; rfl
  | leaf i op n hn =>
      intro r p hp
      cases op with
      | «variable» x =>
          simp only [resolverBindExpr, bind, Option.bind_eq_some_iff, Option.some.injEq] at hp
          obtain ⟨_, -, n', hn', rfl⟩ := hp
          simp only [Hir.skeleton, hn hn', HirLeaf.outline]
      | _ =>
          simp only [resolverBindExpr, bind, Option.bind_eq_some_iff, Option.some.injEq] at hp
          obtain ⟨n', hn', rfl⟩ := hp
          simp only [Hir.skeleton, hn hn']
  | one i op a n ha hn =>
      intro r p hp
      cases op with
      | function f names =>
          simp only [resolverBindExpr, bind, Option.bind_eq_some_iff, Option.some.injEq] at hp
          obtain ⟨n', hn', rfl⟩ := hp
          simp only [Hir.skeleton, hn hn']
      | reassign x t =>
          simp only [resolverBindExpr, bind, Option.bind_eq_some_iff, Option.some.injEq] at hp
          obtain ⟨a', ha', _, -, n', hn', rfl⟩ := hp
          simp only [Hir.skeleton, ha ha', hn hn', HirOne.outline]
      | _ =>
          simp only [resolverBindExpr, bind, Option.bind_eq_some_iff, Option.some.injEq] at hp
          obtain ⟨a', ha', n', hn', rfl⟩ := hp
          simp only [Hir.skeleton, ha ha', hn hn', HirOne.outline]
  | two i op a b n ha hb hn =>
      intro r p hp
      cases op <;>
      · simp only [resolverBindExpr, bind, Option.bind_eq_some_iff, Option.some.injEq] at hp
        obtain ⟨a', ha', b', hb', n', hn', rfl⟩ := hp
        simp only [Hir.skeleton, ha ha', hb hb', hn hn']
  | ifNode i c t e n hc ht he hn =>
      intro r p hp
      simp only [resolverBindExpr, bind, Option.bind_eq_some_iff, Option.some.injEq] at hp
      obtain ⟨c', hc', t', ht', e', he', n', hn', rfl⟩ := hp
      simp only [Hir.skeleton, hc hc', ht ht', he he', hn hn']

theorem skeleton_resolveTop (globals : List HirSymbol) (h : Hir) :
    ∀ {r : HirResolver} {p : Hir × HirResolver}, resolveTop globals h r = some p →
      p.1.skeleton = h.skeleton := by
  -- A child that is bound by itself, in front of the rest.
  have node : ∀ {h n : Hir} {r : HirResolver} {q p : Hir × HirResolver},
      resolverBindExpr h r = some q → p.1.skeleton = n.skeleton →
      (q.1.append p.1).skeleton = (h.append n).skeleton := by
    intro h n r q p hq hp
    rw [Hir.skeleton_append, Hir.skeleton_append, skeleton_resolverBindExpr h hq, hp]
  induction h with
  | nil => intro r p hp; cases hp; rfl
  | leaf i op n hn =>
      intro r p hp
      simp only [resolveTop, bind, Option.bind_eq_some_iff, Option.some.injEq] at hp
      obtain ⟨q, hq, n', hn', rfl⟩ := hp
      exact node hq (hn hn')
  | one i op a n ha hn =>
      intro r p hp
      cases op with
      | function f names =>
          simp only [resolveTop, bind, Option.bind_eq_some_iff, Option.some.injEq] at hp
          obtain ⟨a', ha', n', hn', rfl⟩ := hp
          simp only [Hir.skeleton, skeleton_resolverBindExpr a ha', hn hn', HirOne.outline]
      | variableDecl x t =>
          simp only [resolveTop, bind, Option.bind_eq_some_iff, Option.some.injEq] at hp
          obtain ⟨_, -, a', ha', n', hn', rfl⟩ := hp
          simp only [Hir.skeleton, skeleton_resolverBindExpr a ha', hn hn', HirOne.outline]
      | _ =>
          simp only [resolveTop, bind, Option.bind_eq_some_iff, Option.some.injEq] at hp
          obtain ⟨q, hq, n', hn', rfl⟩ := hp
          exact node hq (hn hn')
  | two i op a b n ha hb hn =>
      intro r p hp
      simp only [resolveTop, bind, Option.bind_eq_some_iff, Option.some.injEq] at hp
      obtain ⟨q, hq, n', hn', rfl⟩ := hp
      exact node hq (hn hn')
  | ifNode i c t e n hc ht he hn =>
      intro r p hp
      simp only [resolveTop, bind, Option.bind_eq_some_iff, Option.some.injEq] at hp
      obtain ⟨q, hq, n', hn', rfl⟩ := hp
      exact node hq (hn hn')

/-- A lowered program, taken apart, with the positions of its nodes. -/
theorem vntIrLower_skeleton {statements next : AstNode} {ir : Hir}
    (h : vntIrLower (.one .program statements next) = some ir) :
    ∃ a, a.skeleton = ((lowerList statements).number 1).skeleton ∧ ir = .one 0 .program a .nil ∧
      vntIrValidate ir = true := by
  simp only [vntIrLower, Hir.number, resolveHirSymbols, bind, Option.bind_eq_some_iff,
    Option.some.injEq] at h
  obtain ⟨ir', ⟨p, hp, rfl⟩, hv⟩ := h
  split at hv
  · rename_i hv'
    cases hv
    exact ⟨p.1, skeleton_resolveTop _ _ hp, rfl, hv'⟩
  · cases hv

/-- A lowered program, taken apart. -/
theorem vntIrLower_ok {statements next : AstNode} {ir : Hir}
    (h : vntIrLower (.one .program statements next) = some ir) :
    ∃ a, a.outline = (lowerList statements).outline ∧ ir = .one 0 .program a .nil ∧
      vntIrValidate ir = true := by
  obtain ⟨a, ha, hir, hv⟩ := vntIrLower_skeleton h
  refine ⟨a, ?_, hir, hv⟩
  rw [← Hir.outline_skeleton, ha, Hir.outline_skeleton, Hir.outline_number]

end Vnt
