import Vnt.Arena.LowerSpells
import Vnt.Ir.Outline

/-!
# `Arena.ResolveSpells` — the resolver on the array

Where the array spells a tree, `resolve_hir_symbols` does to the array what the tree's resolver does to the tree:
it fails where that fails, and otherwise the array spells the resolved tree, with the same nodes at the same
positions. Every loop over links is a loop over a spelled chain.
-/

namespace Vnt.Arena

variable {nodes nodes' nodes₁ : List VntIrNode} {role role' : VntIrEdgeRole} {h g n : Hir} {e : Option Nat}

/-! ## Finding children by role -/

theorem length_le_size (h : Hir) : h.length ≤ h.size := by
  induction h <;> simp only [Hir.length, Hir.size] <;> omega

theorem start_none (h : Hir) : start h none = (siblings h).head? := by
  rw [start, Option.or_none]

/-- The head of a spelled chain. -/
theorem Spells.head (hs : Spells nodes role h e) (hne : h ≠ .nil) : ∃ i node, start h none = some i ∧
    (∀ e', start h e' = some i) ∧ nodes[i]? = some node ∧ node.role = some role ∧
    node.nextSibling = start h.next e ∧ Spells nodes role h.next e := by
  cases h with
  | nil => exact absurd rfl hne
  | leaf i op n => exact ⟨i, _, rfl, fun _ => rfl, hs.1, rfl, rfl, hs.2⟩
  | one i op a n => exact ⟨i, _, rfl, fun _ => rfl, hs.1, rfl, rfl, hs.2.2⟩
  | two i op a b n => exact ⟨i, _, rfl, fun _ => rfl, hs.1, rfl, rfl, hs.2.2.2⟩
  | ifNode i c t e' n => exact ⟨i, _, rfl, fun _ => rfl, hs.1, rfl, rfl, hs.2.2.2.2⟩

/-- A chain of another role is passed over. -/
theorem siblingRole_skip (hs : Spells nodes role' h e) (hrole : role' ≠ role) {fuel : Nat} (hf : h.length ≤ fuel) :
    siblingRole nodes role fuel (start h e) = siblingRole nodes role (fuel - h.length) e := by
  have node : ∀ {i : Nat} {n : Hir} {node : VntIrNode} {fuel : Nat}, nodes[i]? = some node →
      node.role = some role' → node.nextSibling = start n e → n.length + 1 ≤ fuel →
      (∀ {fuel : Nat}, n.length ≤ fuel →
        siblingRole nodes role fuel (start n e) = siblingRole nodes role (fuel - n.length) e) →
      siblingRole nodes role fuel (some i) = siblingRole nodes role (fuel - (n.length + 1)) e := by
    intro i n node fuel hi hr hnext hf ih
    obtain ⟨f, rfl⟩ : ∃ f, fuel = f + 1 := ⟨fuel - 1, by omega⟩
    have hne : ¬ node.role = some role := by
      rw [hr]
      simpa using hrole
    rw [siblingRole, access_eq_ok.mpr hi]
    show (if node.role = some role then _ else _) = _
    rw [if_neg hne, hnext, ih (Nat.le_of_succ_le_succ hf), Nat.add_sub_add_right]
  induction h generalizing fuel with
  | nil => rfl
  | leaf i op n ih => exact node hs.1 rfl rfl hf (ih hs.2)
  | one i op a n _ ih => exact node hs.1 rfl rfl hf (ih hs.2.2)
  | two i op a b n _ _ ih => exact node hs.1 rfl rfl hf (ih hs.2.2.2)
  | ifNode i c t e' n _ _ _ ih => exact node hs.1 rfl rfl hf (ih hs.2.2.2.2)

theorem siblingRole_head (hs : Spells nodes role h e) (hne : h ≠ .nil) {fuel : Nat} (hf : 0 < fuel) :
    siblingRole nodes role fuel (start h e) = .ok (start h none) := by
  obtain ⟨i, node, hi, hstart, hnode, hr, -⟩ := hs.head hne
  obtain ⟨f, rfl⟩ : ∃ f, fuel = f + 1 := ⟨fuel - 1, by omega⟩
  rw [hstart, hi, siblingRole, access_eq_ok.mpr hnode]
  show (if node.role = some role then _ else _) = _
  rw [if_pos hr]
  rfl

/-- In front of a chain of another role, or of nothing, a chain of the role is found by its head. -/
theorem siblingRole_start {rest : Hir} (hs : Spells nodes role h (start rest none))
    (hrest : Spells nodes role' rest none) (hrole : role' ≠ role) {fuel : Nat} (hf : h.length + rest.length ≤ fuel) :
    siblingRole nodes role fuel (start h (start rest none)) = .ok (start h none) := by
  by_cases hne : h = .nil
  · subst hne
    have hle : rest.length ≤ fuel := Nat.le_trans (Nat.le_add_left _ _) hf
    have hskip := siblingRole_skip hrest hrole hle
    show siblingRole nodes role fuel (start rest none) = .ok none
    rw [hskip, siblingRole]
    rfl
  · refine siblingRole_head hs hne (Nat.lt_of_lt_of_le ?_ hf)
    have hpos : 0 < h.length := by
      cases h <;> simp_all [Hir.length]
    omega

/-! ## The tree's resolver, node by node -/

theorem resolverBindExpr_append (g n : Hir) (r : HirResolver) : Vnt.resolverBindExpr (g.append n) r = (do
    let p ← Vnt.resolverBindExpr g r
    let q ← Vnt.resolverBindExpr n p.2
    some (p.1.append q.1, q.2)) := by
  induction g generalizing r with
  | nil => simp
  | leaf i op n hn => cases op <;> simp [hn, Option.bind_assoc]
  | one i op a n _ hn => cases op <;> simp [hn, Option.bind_assoc]
  | two i op a b n _ _ hn => cases op <;> simp [hn, Option.bind_assoc]
  | ifNode i c t e n _ _ _ hn => simp [hn, Option.bind_assoc]

theorem resolverBindExpr_depth (h : Hir) : ∀ {r : HirResolver} {p : Hir × HirResolver},
    Vnt.resolverBindExpr h r = some p → p.2.depth = r.depth := by
  induction h with
  | nil => intro r p hp; cases hp; rfl
  | leaf i op n hn =>
      intro r p hp
      cases op <;> simp only [Vnt.resolverBindExpr, bind, Option.bind_eq_some_iff, Option.some.injEq] at hp
      case «variable» =>
        obtain ⟨_, -, q, hq, rfl⟩ := hp
        have hrest := hn hq
        exact hrest
      all_goals
        obtain ⟨q, hq, rfl⟩ := hp
        have hrest := hn hq
        exact hrest
  | one i op a n ha hn =>
      intro r p hp
      cases op <;> simp only [Vnt.resolverBindExpr, bind, Option.bind_eq_some_iff, Option.some.injEq] at hp
      case function =>
        obtain ⟨q, hq, rfl⟩ := hp
        have hrest := hn hq
        exact hrest
      case reassign =>
        obtain ⟨q, hq, _, -, q', hq', rfl⟩ := hp
        have hrest := (hn hq').trans (ha hq)
        exact hrest
      all_goals
        obtain ⟨q, hq, q', hq', rfl⟩ := hp
        have hrest := (hn hq').trans (ha hq)
        exact hrest
  | two i op a b n ha hb hn =>
      intro r p hp
      cases op <;> simp only [Vnt.resolverBindExpr, bind, Option.bind_eq_some_iff, Option.some.injEq] at hp
      case whileNode =>
        obtain ⟨q, hq, q', hq', q'', hq'', rfl⟩ := hp
        have hrest := (hn hq'').trans (ha hq)
        exact hrest
      all_goals
        obtain ⟨q, hq, q', hq', q'', hq'', rfl⟩ := hp
        have hrest := (hn hq'').trans ((hb hq').trans (ha hq))
        exact hrest
  | ifNode i c t e n hc ht he hn =>
      intro r p hp
      simp only [Vnt.resolverBindExpr, bind, Option.bind_eq_some_iff, Option.some.injEq] at hp
      obtain ⟨q, hq, _, -, _, -, q', hq', rfl⟩ := hp
      have hrest := (hn hq').trans (hc hq)
      exact hrest

theorem siblings_skeleton (h : Hir) : siblings h.skeleton = siblings h := by
  induction h <;> simp_all [siblings]

theorem positions_skeleton (h : Hir) : positions h.skeleton = positions h := by
  induction h <;> simp_all [positions]

/-- What keeps the skeleton moves no node. -/
theorem siblings_of_skeleton {h h' : Hir} (hk : h'.skeleton = h.skeleton) : siblings h' = siblings h := by
  rw [← siblings_skeleton, hk, siblings_skeleton]

theorem positions_of_skeleton {h h' : Hir} (hk : h'.skeleton = h.skeleton) : positions h' = positions h := by
  rw [← positions_skeleton, hk, positions_skeleton]

theorem start_of_skeleton {h h' : Hir} (hk : h'.skeleton = h.skeleton) (e : Option Nat) :
    start h' e = start h e := by
  rw [start, siblings_of_skeleton hk]
  rfl

/-- Resolution moves no node. -/
theorem siblings_resolved {r : HirResolver} {p : Hir × HirResolver} (hp : Vnt.resolverBindExpr h r = some p) :
    siblings p.1 = siblings h := siblings_of_skeleton (skeleton_resolverBindExpr h hp)

theorem positions_resolved {r : HirResolver} {p : Hir × HirResolver} (hp : Vnt.resolverBindExpr h r = some p) :
    positions p.1 = positions h := positions_of_skeleton (skeleton_resolverBindExpr h hp)

theorem start_resolved {r : HirResolver} {p : Hir × HirResolver} (hp : Vnt.resolverBindExpr h r = some p)
    (e : Option Nat) : start p.1 e = start h e := start_of_skeleton (skeleton_resolverBindExpr h hp) e

/-! ## Runs -/

/-- Only the nodes at the positions `ps` have changed. -/
structure Kept (nodes nodes' : List VntIrNode) (ps : List Nat) : Prop where
  length : nodes'.length = nodes.length
  frame : ∀ j, j ∉ ps → nodes'[j]? = nodes[j]?

/-- The run ends with the resolver `p.2` and an array that spells `p.1` where it spelled `h`. -/
def Follows (nodes : List VntIrNode) (role : VntIrEdgeRole) (h : Hir) (e : Option Nat) (p : Hir × HirResolver)
    (run : Run (Option Binding)) : Prop :=
  ∃ nodes', run = .ok (some ⟨nodes', p.2⟩) ∧ Kept nodes nodes' (positions h) ∧ Spells nodes' role p.1 e

/-- What the array must be for the chain `h` to be resolved in it. -/
structure Resolvable (nodes : List VntIrNode) (role : VntIrEdgeRole) (h : Hir) (e : Option Nat) : Prop where
  spells : Spells nodes role h e
  nodup : (positions h).Nodup
  shape : Vnt.validateNodeShape h = true

/-- Enough fuel for a node, and two less than for a chain. -/
def NodeBinds (h : Hir) : Prop := ∀ (fuel : Nat) (nodes : List VntIrNode) (r : HirResolver) (role : VntIrEdgeRole)
  (e : Option Nat) (p : Hir × HirResolver), Resolvable nodes role h e → 3 * h.size ≤ fuel →
    Vnt.resolverBindExpr h r = some p → Follows nodes role h e p (resolverBindExpr fuel (start h none) ⟨nodes, r⟩)

def RoleBinds (h : Hir) : Prop := ∀ (fuel : Nat) (nodes : List VntIrNode) (r : HirResolver)
  (role role' : VntIrEdgeRole) (rest : Hir) (p : Hir × HirResolver), Resolvable nodes role h (start rest none) →
    Spells nodes role' rest none → role' ≠ role → (∀ j ∈ positions h, j ∉ positions rest) →
    h.size + rest.size ≤ nodes.length → 3 * h.size < fuel → Vnt.resolverBindExpr h r = some p →
    Follows nodes role h (start rest none) p (bindRoleFrom fuel role (start h none) ⟨nodes, r⟩)

def SiblingsBind (h : Hir) : Prop := ∀ (fuel : Nat) (nodes : List VntIrNode) (r : HirResolver) (role : VntIrEdgeRole)
  (p : Hir × HirResolver), Resolvable nodes role h none → 3 * h.size < fuel → Vnt.resolverBindExpr h r = some p →
    Follows nodes role h none p (bindSiblings fuel (start h none) ⟨nodes, r⟩)

/-- The three ways a chain is resolved. -/
structure Binds (h : Hir) : Prop where
  node : h.length ≤ 1 → NodeBinds h
  role : RoleBinds h
  siblings : SiblingsBind h

/-! ## Chains -/

theorem append_nil (h : Hir) : h.append .nil = h := by
  induction h <;> simp_all [Hir.append]

theorem length_append (h h' : Hir) : (h.append h').length = h.length + h'.length := by
  rw [← length_siblings, siblings_append, List.length_append, length_siblings, length_siblings]

theorem eq_nil_of_length (hl : h.length = 0) : h = .nil := by
  rw [← siblings_eq_nil, ← List.length_eq_zero_iff, length_siblings, hl]

theorem siblings_next (h : Hir) : siblings h.next = (siblings h).tail := by
  cases h <;> rfl

theorem validateNodeShape_append (h h' : Hir) :
    Vnt.validateNodeShape (h.append h') = (Vnt.validateNodeShape h && Vnt.validateNodeShape h') := by
  induction h <;> simp_all [Hir.append, Vnt.validateNodeShape, Bool.and_assoc]

theorem Spells.split {role : VntIrEdgeRole} (hs : Spells nodes role (g.append n) e) :
    Spells nodes role g (start n e) ∧ Spells nodes role n e := by
  induction g with
  | nil => exact ⟨trivial, hs⟩
  | leaf i op m hm =>
      obtain ⟨hnode, hrest⟩ := hs
      rw [start_append] at hnode
      exact ⟨⟨hnode, (hm hrest).1⟩, (hm hrest).2⟩
  | one i op a m _ hm =>
      obtain ⟨hnode, ha, hrest⟩ := hs
      rw [start_append] at hnode
      exact ⟨⟨hnode, ha, (hm hrest).1⟩, (hm hrest).2⟩
  | two i op a b m _ _ hm =>
      obtain ⟨hnode, ha, hb, hrest⟩ := hs
      rw [start_append] at hnode
      exact ⟨⟨hnode, ha, hb, (hm hrest).1⟩, (hm hrest).2⟩
  | ifNode i c t e' m _ _ _ hm =>
      obtain ⟨hnode, hc, ht, he, hrest⟩ := hs
      rw [start_append] at hnode
      exact ⟨⟨hnode, hc, ht, he, (hm hrest).1⟩, (hm hrest).2⟩

theorem Kept.trans {nodes₂ : List VntIrNode} {ps qs : List Nat} (h : Kept nodes nodes₁ ps)
    (h' : Kept nodes₁ nodes₂ qs) : Kept nodes nodes₂ (ps ++ qs) where
  length := h'.length.trans h.length
  frame := by
    intro j hj
    rw [List.mem_append, not_or] at hj
    rw [h'.frame j hj.2, h.frame j hj.1]

/-- A chain that was resolved before another one, and stands beside it. -/
theorem Kept.spells {ps : List Nat} (hk : Kept nodes nodes' ps) (hs : Spells nodes role h e)
    (hdisj : ∀ j ∈ positions h, j ∉ ps) : Spells nodes' role h e :=
  hs.frame fun j hj => hk.frame j (hdisj j hj)

/-- A single node and the chain behind it. -/
structure Consed (nodes : List VntIrNode) (role : VntIrEdgeRole) (g n : Hir) (e : Option Nat) : Prop where
  first : Resolvable nodes role g (start n e)
  rest : Resolvable nodes role n e
  disjoint : ∀ j ∈ positions n, j ∉ positions g

theorem Resolvable.consed (h : Resolvable nodes role (g.append n) e) : Consed nodes role g n e := by
  have hnd := h.nodup
  have hshape := h.shape
  rw [positions_append, List.nodup_append] at hnd
  rw [validateNodeShape_append, Bool.and_eq_true] at hshape
  exact ⟨⟨h.spells.split.1, hnd.1, hshape.1⟩, ⟨h.spells.split.2, hnd.2.1, hshape.2⟩,
    fun j hj hg => hnd.2.2 j hg j hj rfl⟩

/-- The two parts of a chain, resolved one after the other. -/
theorem Consed.follows {nodes₂ : List VntIrNode} {g' n' : Hir} (hc : Consed nodes role g n e)
    (hg : g'.skeleton = g.skeleton) (hn : n'.skeleton = n.skeleton)
    (hk₁ : Kept nodes nodes₁ (positions g)) (hs₁ : Spells nodes₁ role g' (start n e))
    (hk₂ : Kept nodes₁ nodes₂ (positions n)) (hs₂ : Spells nodes₂ role n' e) :
    Kept nodes nodes₂ (positions (g.append n)) ∧ Spells nodes₂ role (g'.append n') e := by
  refine ⟨?_, Spells.append ?_ hs₂⟩
  · rw [positions_append]
    exact hk₁.trans hk₂
  · rw [start_of_skeleton hn]
    refine hk₂.spells hs₁ fun j hj hn => hc.disjoint j hn ?_
    rwa [positions_of_skeleton hg] at hj

/-- The link behind a single resolved node. -/
theorem Spells.next_of_single {g' : Hir} (hs : Spells nodes role g' e) (hk : g'.skeleton = g.skeleton)
    (hg : g.length = 1) :
    ∃ c node, start g none = some c ∧ (∀ e', start g e' = some c) ∧ nodes[c]? = some node ∧ node.nextSibling = e := by
  have hsib := siblings_of_skeleton hk
  obtain ⟨c, hc⟩ : ∃ c, siblings g = [c] := List.length_eq_one_iff.mp ((length_siblings g).trans hg)
  have hne : g' ≠ .nil := by
    intro hnil
    rw [hnil, hc] at hsib
    cases hsib
  obtain ⟨i, node, hi, hstart, hnode, -, hnext, -⟩ := hs.head hne
  have hend : siblings g'.next = [] := by
    rw [siblings_next, hsib, hc]
    rfl
  rw [start_of_skeleton hk] at hi
  refine ⟨i, node, hi, fun e' => by rw [← start_of_skeleton hk, hstart], hnode, ?_⟩
  rw [hnext, start, hend]
  rfl

theorem binds_append (hg : g.length = 1) (hnode : NodeBinds g) (hn : Binds n) : Binds (g.append n) where
  node := by
    intro hlen
    rw [length_append, hg] at hlen
    rw [eq_nil_of_length (by omega : n.length = 0), append_nil]
    exact hnode
  role := by
    intro fuel nodes r role role' rest p hres hrest hrole hdisj hsize hfuel hp
    have hc := hres.consed
    rw [resolverBindExpr_append] at hp
    simp only [bind, Option.bind_eq_some_iff, Option.some.injEq] at hp
    obtain ⟨p₁, hp₁, q, hq, rfl⟩ := hp
    rw [size_append] at hsize hfuel
    rw [positions_append] at hdisj
    obtain ⟨f, rfl⟩ : ∃ f, fuel = f + 1 := ⟨fuel - 1, by omega⟩
    obtain ⟨nodes₁, hrun₁, hk₁, hs₁⟩ := hnode f nodes r role _ p₁ hc.first (by omega) hp₁
    obtain ⟨c, node, hstart, hstart', hat, hnext⟩ := hs₁.next_of_single (skeleton_resolverBindExpr g hp₁) hg
    have hn₁ : Resolvable nodes₁ role n (start rest none) :=
      ⟨hk₁.spells hc.rest.spells hc.disjoint, hc.rest.nodup, hc.rest.shape⟩
    have hrest₁ : Spells nodes₁ role' rest none :=
      hk₁.spells hrest fun j hj hjg => hdisj j (List.mem_append_left _ hjg) hj
    have hgsize : 0 < g.size := Nat.lt_of_lt_of_le (by omega) (length_le_size g)
    have hlen₁ := length_le_size n
    have hlen₂ := length_le_size rest
    obtain ⟨nodes₂, hrun₂, hk₂, hs₂⟩ := hn.role f nodes₁ p₁.2 role role' rest q hn₁ hrest₁ hrole
      (fun j hj => hdisj j (List.mem_append_right _ hj)) (by rw [hk₁.length]; omega) (by omega) hq
    obtain ⟨hk, hs⟩ := hc.follows (skeleton_resolverBindExpr g hp₁) (skeleton_resolverBindExpr n hq) hk₁ hs₁ hk₂ hs₂
    refine ⟨nodes₂, ?_, hk, hs⟩
    rw [start_append, hstart', bindRoleFrom, ← hstart, andThen_ok hrun₁]
    have hnextRole : hirNextRole nodes₁ c role = .ok (start n none) := by
      unfold hirNextRole
      rw [hat]
      show siblingRole nodes₁ role nodes₁.length node.nextSibling = _
      rw [hnext]
      exact siblingRole_start hn₁.spells hrest₁ hrole (by rw [hk₁.length]; omega)
    show (hirNextRole nodes₁ c role >>= _) = _
    rw [hnextRole]
    exact hrun₂
  siblings := by
    intro fuel nodes r role p hres hfuel hp
    have hc := hres.consed
    rw [resolverBindExpr_append] at hp
    simp only [bind, Option.bind_eq_some_iff, Option.some.injEq] at hp
    obtain ⟨p₁, hp₁, q, hq, rfl⟩ := hp
    rw [size_append] at hfuel
    obtain ⟨f, rfl⟩ : ∃ f, fuel = f + 1 := ⟨fuel - 1, by omega⟩
    obtain ⟨nodes₁, hrun₁, hk₁, hs₁⟩ := hnode f nodes r role _ p₁ hc.first (by omega) hp₁
    obtain ⟨c, node, hstart, hstart', hat, hnext⟩ := hs₁.next_of_single (skeleton_resolverBindExpr g hp₁) hg
    have hn₁ : Resolvable nodes₁ role n none :=
      ⟨hk₁.spells hc.rest.spells hc.disjoint, hc.rest.nodup, hc.rest.shape⟩
    have hgsize : 0 < g.size := Nat.lt_of_lt_of_le (by omega) (length_le_size g)
    obtain ⟨nodes₂, hrun₂, hk₂, hs₂⟩ := hn.siblings f nodes₁ p₁.2 role q hn₁ (by omega) hq
    obtain ⟨hk, hs⟩ := hc.follows (skeleton_resolverBindExpr g hp₁) (skeleton_resolverBindExpr n hq) hk₁ hs₁ hk₂ hs₂
    refine ⟨nodes₂, ?_, hk, hs⟩
    rw [start_append, hstart', bindSiblings, ← hstart, andThen_ok hrun₁]
    show (access nodes₁ c >>= _) = _
    rw [access_eq_ok.mpr hat]
    show bindSiblings f node.nextSibling _ = _
    rw [hnext]
    exact hrun₂

theorem binds_nil : Binds .nil where
  node := by
    intro _ fuel nodes r role e p _ _ hp
    cases hp
    refine ⟨nodes, ?_, ⟨rfl, fun _ _ => rfl⟩, trivial⟩
    cases fuel <;> rfl
  role := by
    intro fuel nodes r role role' rest p _ _ _ _ _ _ hp
    cases hp
    refine ⟨nodes, ?_, ⟨rfl, fun _ _ => rfl⟩, trivial⟩
    cases fuel <;> rfl
  siblings := by
    intro fuel nodes r role p _ _ hp
    cases hp
    refine ⟨nodes, ?_, ⟨rfl, fun _ _ => rfl⟩, trivial⟩
    cases fuel <;> rfl

/-! ## Nodes -/

theorem length_positions (h : Hir) : (positions h).length = h.size := by
  induction h <;> simp_all [positions, Hir.size] <;> omega

theorem Spells.lt (hs : Spells nodes role h e) : ∀ j ∈ positions h, j < nodes.length := by
  have node : ∀ {i : Nat} {node : VntIrNode}, nodes[i]? = some node → i < nodes.length :=
    fun hi => (List.getElem?_eq_some_iff.mp hi).1
  induction h generalizing role e with
  | nil => intro j hj; cases hj
  | leaf i op n hn =>
      simp only [positions, List.forall_mem_cons]
      exact ⟨node hs.1, hn hs.2⟩
  | one i op a n ha hn =>
      simp only [positions, List.forall_mem_cons, List.forall_mem_append]
      exact ⟨node hs.1, ha hs.2.1, hn hs.2.2⟩
  | two i op a b n ha hb hn =>
      simp only [positions, List.forall_mem_cons, List.forall_mem_append]
      exact ⟨node hs.1, ha hs.2.1, hb hs.2.2.1, hn hs.2.2.2⟩
  | ifNode i c t e' n hc ht he hn =>
      simp only [positions, List.forall_mem_cons, List.forall_mem_append]
      exact ⟨node hs.1, hc hs.2.1, ht hs.2.2.1, he hs.2.2.2.1, hn hs.2.2.2.2⟩

theorem Resolvable.room (h : Resolvable nodes role g e) : g.size ≤ nodes.length := by
  rw [← length_positions]
  exact Lib.length_le_of_lt h.nodup h.spells.lt

theorem Kept.mono {ps qs : List Nat} (h : Kept nodes nodes' ps) (hsub : ps ⊆ qs) : Kept nodes nodes' qs :=
  ⟨h.length, fun j hj => h.frame j fun hmem => hj (hsub hmem)⟩

theorem roleChild_at {i : Nat} {node : VntIrNode} (hat : nodes[i]? = some node) :
    roleChild nodes i role = siblingRole nodes role nodes.length node.firstChild := by
  unfold roleChild
  rw [hat]

variable {i : Nat} {a b c t e' : Hir} {r : HirResolver} {p : Hir × HirResolver}

theorem bindChild_follows {fuel : Nat} (hchild : roleChild nodes i role = .ok (start a none)) (ha : NodeBinds a)
    (hres : Resolvable nodes role a e) (hfuel : 3 * a.size < fuel) (hp : Vnt.resolverBindExpr a r = some p) :
    Follows nodes role a e p (bindChild fuel role i ⟨nodes, r⟩) := by
  obtain ⟨f, rfl⟩ : ∃ f, fuel = f + 1 := ⟨fuel - 1, by omega⟩
  rw [bindChild, hchild]
  exact ha f nodes r role e p hres (by omega) hp

theorem bindRole_follows {fuel : Nat} {rest : Hir} (hchild : roleChild nodes i role = .ok (start a none))
    (ha : RoleBinds a) (hres : Resolvable nodes role a (start rest none)) (hrest : Spells nodes role' rest none)
    (hrole : role' ≠ role) (hdisj : ∀ j ∈ positions a, j ∉ positions rest) (hroom : a.size + rest.size ≤ nodes.length)
    (hfuel : 3 * a.size + 1 < fuel) (hp : Vnt.resolverBindExpr a r = some p) :
    Follows nodes role a (start rest none) p (resolverBindRole fuel role i ⟨nodes, r⟩) := by
  obtain ⟨f, rfl⟩ : ∃ f, fuel = f + 1 := ⟨fuel - 1, by omega⟩
  rw [resolverBindRole, hchild]
  exact ha f nodes r role role' rest p hres hrest hrole hdisj hroom (by omega) hp

theorem renameFound_of_find {node : VntIrNode} {x : String} {symbol : HirSymbol} (hat : nodes[i]? = some node)
    (hx : node.value.text? = some x) (hfind : r.find x = some symbol) :
    Binding.renameFound ⟨nodes, r⟩ i =
      .ok (some ⟨nodes.set i { node with value := .text (some symbol.storageKey) }, r⟩) := by
  have htext : textOf node = .ok x := by
    rw [textOf, hx]
    rfl
  rw [Binding.renameFound, access_eq_ok.mpr hat]
  show (textOf node >>= _) = _
  rw [htext]
  simp only [bind, Except.bind, hfind]
  show (access nodes i >>= _) = _
  rw [access_eq_ok.mpr hat]
  rfl

theorem nodeBinds_leaf (op : HirLeaf) : NodeBinds (.leaf i op .nil) := by
  intro fuel nodes r role e p hres hfuel hp
  obtain ⟨f, rfl⟩ : ∃ f, fuel = f + 1 := ⟨fuel - 1, by simp only [Hir.size] at hfuel; omega⟩
  have hat := hres.spells.1
  show Follows nodes role _ e p (resolverBindExpr (f + 1) (some i) ⟨nodes, r⟩)
  rw [resolverBindExpr]
  simp only [hat]
  cases op with
  | «variable» x =>
      simp only [Vnt.resolverBindExpr, bind, Option.bind_eq_some_iff, Option.some.injEq] at hp
      obtain ⟨symbol, hfind, q, hq, rfl⟩ := hp
      cases hq
      refine ⟨_, ?_, ⟨List.length_set, fun j hj => getElem?_set_ne' ?_⟩, getElem?_set_self' hat, trivial⟩
      · exact renameFound_of_find hat rfl hfind
      · rintro rfl
        exact hj (by simp )
  | _ =>
      simp only [Vnt.resolverBindExpr, bind, Option.bind_eq_some_iff, Option.some.injEq] at hp
      obtain ⟨q, hq, rfl⟩ := hp
      cases hq
      exact ⟨nodes, rfl, ⟨rfl, fun _ _ => rfl⟩, hres.spells⟩

/-- The children of a node with one group of them. -/
structure OneReady (nodes : List VntIrNode) (role : VntIrEdgeRole) (i : Nat) (op : HirOne) (a : Hir) (e : Option Nat) :
    Prop where
  at_i : nodes[i]? = some ((onePayload op).placed role (siblings a) e)
  not_below : i ∉ positions a
  children : Resolvable nodes (oneRole op) a none
  found : roleChild nodes i (oneRole op) = .ok (start a none)

theorem Resolvable.oneReady {op : HirOne} (h : Resolvable nodes role (.one i op a .nil) e) :
    OneReady nodes role i op a e := by
  have hnd := h.nodup
  have hshape := h.shape
  have hroom := h.room
  simp only [positions, List.append_nil, List.nodup_cons] at hnd
  simp only [Vnt.validateNodeShape, Bool.and_eq_true] at hshape
  simp only [Hir.size] at hroom
  have hle := length_le_size a
  have hother : VntIrEdgeRole.root ≠ oneRole op := by
    cases op <;> simp [oneRole]
  refine ⟨h.spells.1, hnd.1, ⟨h.spells.2.1, hnd.2, hshape.1.2⟩, ?_⟩
  rw [roleChild_at h.spells.1]
  show siblingRole nodes (oneRole op) nodes.length (siblings a).head? = _
  rw [← start_none]
  exact @siblingRole_start nodes (oneRole op) .root a .nil h.spells.2.1 trivial hother _ (by simp only [Hir.length]; omega)

/-- A node whose children have been resolved. -/
theorem OneReady.follows {op : HirOne} (h : OneReady nodes role i op a e) (hp : Vnt.resolverBindExpr a r = some p)
    {run : Run (Option Binding)} (hrun : Follows nodes (oneRole op) a none p run) :
    Follows nodes role (.one i op a .nil) e (.one i op p.1 .nil, p.2) run := by
  obtain ⟨nodes₁, hrun, hk, hs⟩ := hrun
  refine ⟨nodes₁, hrun, hk.mono ?_, ?_, hs, trivial⟩
  · exact fun j hj => List.mem_cons_of_mem _ (List.mem_append_left _ hj)
  · rw [hk.frame i h.not_below, h.at_i, siblings_resolved hp]
    rfl

theorem OneReady.bindChild {op : HirOne} (h : OneReady nodes role i op a e) (ha : NodeBinds a) {fuel : Nat}
    (hfuel : 3 * a.size < fuel) (hp : Vnt.resolverBindExpr a r = some p) :
    Follows nodes role (.one i op a .nil) e (.one i op p.1 .nil, p.2) (bindChild fuel (oneRole op) i ⟨nodes, r⟩) :=
  h.follows hp (bindChild_follows h.found ha h.children hfuel hp)

theorem OneReady.bindRole {op : HirOne} (h : OneReady nodes role i op a e) (ha : RoleBinds a) {fuel : Nat}
    (hfuel : 3 * a.size + 1 < fuel) (hp : Vnt.resolverBindExpr a r = some p) :
    Follows nodes role (.one i op a .nil) e (.one i op p.1 .nil, p.2)
      (resolverBindRole fuel (oneRole op) i ⟨nodes, r⟩) := by
  have hother : VntIrEdgeRole.root ≠ oneRole op := by
    cases op <;> simp [oneRole]
  exact h.follows hp (@bindRole_follows nodes (oneRole op) .root i a r p fuel .nil h.found ha h.children trivial hother
    (by simp ) h.children.room hfuel hp)

theorem OneReady.bindSiblings {op : HirOne} (h : OneReady nodes role i op a e) (ha : SiblingsBind a) {fuel : Nat}
    (hfuel : 3 * a.size < fuel) (hp : Vnt.resolverBindExpr a r = some p) :
    Follows nodes role (.one i op a .nil) e (.one i op p.1 .nil, p.2)
      (bindSiblings fuel (siblings a).head? ⟨nodes, r⟩) := by
  rw [← start_none]
  exact h.follows hp (ha fuel nodes r (oneRole op) p h.children hfuel hp)

/-- A node with a text, renamed after its value has been resolved. -/
theorem OneReady.renamed {op : HirOne} (h : OneReady nodes role i op a e) (op' : HirOne) (r' : HirResolver)
    (key : String)
    (hpay : ∀ (cs : List Nat) (next : Option Nat), (onePayload op').placed role cs next =
      { (onePayload op).placed role cs next with value := .text (some key) })
    (hrole : oneRole op' = oneRole op) (hp : Vnt.resolverBindExpr a r = some p)
    {run : Run (Option Binding)} {next : Binding → Run (Option Binding)}
    (hrun : Follows nodes (oneRole op) a none p run)
    (hnext : ∀ nodes₁ : List VntIrNode, nodes₁[i]? = some ((onePayload op).placed role (siblings a) e) →
      next ⟨nodes₁, p.2⟩ = .ok (some ⟨nodes₁.set i
        { (onePayload op).placed role (siblings a) e with value := .text (some key) }, r'⟩)) :
    Follows nodes role (.one i op a .nil) e (.one i op' p.1 .nil, r') (andThen run next) := by
  obtain ⟨nodes₁, hrun, hk, hs⟩ := hrun
  have hat : nodes₁[i]? = some ((onePayload op).placed role (siblings a) e) := by
    rw [hk.frame i h.not_below, h.at_i]
  refine ⟨_, (andThen_ok hrun _).trans (hnext nodes₁ hat), ⟨by rw [List.length_set, hk.length], fun j hj => ?_⟩, ?_, ?_,
    trivial⟩
  · simp only [positions, List.append_nil, List.mem_cons, not_or] at hj
    rw [getElem?_set_ne' (Ne.symm hj.1), hk.frame j hj.2]
  · rw [getElem?_set_self' hat, siblings_resolved hp, hpay]
    rfl
  · rw [hrole]
    refine hs.frame fun j hj => getElem?_set_ne' ?_
    rw [positions_resolved hp] at hj
    rintro rfl
    exact h.not_below hj

theorem nodeBinds_one (op : HirOne) (ha : Binds a) : NodeBinds (.one i op a .nil) := by
  intro fuel nodes r role e p hres hfuel hp
  simp only [Hir.size] at hfuel
  obtain ⟨f, rfl⟩ : ∃ f, fuel = f + 1 := ⟨fuel - 1, by omega⟩
  have hless : 3 * a.size < f := by omega
  have hready := hres.oneReady
  have hat := hready.at_i
  have hshape := hres.shape
  simp only [Vnt.validateNodeShape, Bool.and_eq_true] at hshape
  show Follows nodes role _ e p (resolverBindExpr (f + 1) (some i) ⟨nodes, r⟩)
  rw [resolverBindExpr]
  simp only [hat]
  cases op <;> simp only [Vnt.resolverBindExpr, bind, Option.bind_eq_some_iff, Option.some.injEq] at hp
  case program =>
    obtain ⟨q, hq, _, rfl, rfl⟩ := hp
    exact hready.bindRole ha.role (by omega) hq
  case call | array =>
    obtain ⟨q, hq, _, rfl, rfl⟩ := hp
    exact hready.bindSiblings ha.siblings (by omega) hq
  case print | returnNode =>
    obtain ⟨q, hq, _, rfl, rfl⟩ := hp
    exact hready.bindChild (ha.node (of_decide_eq_true hshape.1.1)) (by omega) hq
  case member | unary =>
    obtain ⟨q, hq, _, rfl, rfl⟩ := hp
    exact hready.bindChild (ha.node (Nat.le_of_eq (beq_iff_eq.mp hshape.1.1))) (by omega) hq
  case function =>
    -- a function inside another statement is left as it is
    obtain ⟨_, rfl, rfl⟩ := hp
    exact ⟨nodes, rfl, ⟨rfl, fun _ _ => rfl⟩, hres.spells⟩
  case variableDecl x t =>
    obtain ⟨q, hq, _, rfl, rfl⟩ := hp
    refine hready.renamed (.variableDecl (symbolKey q.2.nextId x) t) (q.2.declare x) (symbolKey q.2.nextId x)
      (fun _ _ => rfl) rfl hq (bindChild_follows hready.found
      (ha.node (of_decide_eq_true hshape.1.1)) hready.children hless hq) fun nodes₁ hat₁ => ?_
    show Binding.renameDeclared _ i = _
    rw [Binding.renameDeclared, access_eq_ok.mpr hat₁]
    show (access nodes₁ i >>= _) = _
    rw [access_eq_ok.mpr hat₁]
    rfl
  case reassign x t =>
    obtain ⟨q, hq, symbol, hfind, _, rfl, rfl⟩ := hp
    refine hready.renamed (.reassign symbol.storageKey t) q.2 symbol.storageKey
      (fun _ _ => rfl) rfl hq (bindChild_follows hready.found
      (ha.node (Nat.le_of_eq (beq_iff_eq.mp hshape.1.1))) hready.children hless hq) fun nodes₁ hat₁ => ?_
    exact renameFound_of_find hat₁ rfl hfind

/-- The children of a node with two groups of them. -/
structure TwoReady (nodes : List VntIrNode) (role : VntIrEdgeRole) (i : Nat) (op : HirTwo) (a b : Hir)
    (e : Option Nat) : Prop where
  at_i : nodes[i]? = some ((twoPayload op).placed role (siblings a ++ siblings b) e)
  not_below : i ∉ positions a ∧ i ∉ positions b
  disjoint : ∀ j ∈ positions b, j ∉ positions a
  first : Resolvable nodes (firstRole op) a (start b none)
  second : Resolvable nodes (secondRole op) b none
  single : a.length = 1
  room : a.size + b.size < nodes.length

theorem Resolvable.twoReady {op : HirTwo} (h : Resolvable nodes role (.two i op a b .nil) e) :
    TwoReady nodes role i op a b e := by
  have hnd := h.nodup
  have hshape := h.shape
  have hroom := h.room
  simp only [positions, List.append_nil, List.nodup_cons, List.mem_append, not_or, List.nodup_append] at hnd
  simp only [Vnt.validateNodeShape, Bool.and_eq_true] at hshape
  simp only [Hir.size] at hroom
  have hsingle : a.length = 1 := by
    cases op <;> simp only [Bool.and_eq_true, beq_iff_eq] at hshape
    case whileNode => exact hshape.1.1.1
    all_goals exact hshape.1.1.1.1
  exact ⟨h.spells.1, hnd.1, fun j hj ha => hnd.2.2.2 j ha j hj rfl, ⟨h.spells.2.1, hnd.2.1, hshape.1.1.2⟩,
    ⟨h.spells.2.2.1, hnd.2.2.1, hshape.1.2⟩, hsingle, by omega⟩

theorem ne_nil_of_length (h : a.length = 1) : a ≠ .nil := by
  rintro rfl
  cases h

theorem TwoReady.foundFirst {op : HirTwo} (h : TwoReady nodes role i op a b e) :
    roleChild nodes i (firstRole op) = .ok (start a none) := by
  have hroom := h.room
  rw [roleChild_at h.at_i]
  show siblingRole nodes (firstRole op) nodes.length (siblings a ++ siblings b).head? = _
  rw [head?_append_start, ← start_none]
  exact siblingRole_head h.first.spells (ne_nil_of_length h.single) (by omega)

/-- The first child and then the others: what the second run starts from. -/
theorem TwoReady.follows {op : HirTwo} {q : Hir × HirResolver} (h : TwoReady nodes role i op a b e)
    (hp : Vnt.resolverBindExpr a r = some p) (hq : siblings q.1 = siblings b) {run : Run (Option Binding)}
    {next : Binding → Run (Option Binding)} (hrun : Follows nodes (firstRole op) a (start b none) p run)
    (hnext : ∀ nodes₁, roleChild nodes₁ i (secondRole op) = .ok (start b none) →
      Resolvable nodes₁ (secondRole op) b none → Follows nodes₁ (secondRole op) b none q (next ⟨nodes₁, p.2⟩)) :
    Follows nodes role (.two i op a b .nil) e (.two i op p.1 q.1 .nil, q.2) (andThen run next) := by
  have hroom := h.room
  obtain ⟨nodes₁, hrun, hk₁, hs₁⟩ := hrun
  have hsib := siblings_resolved hp
  have hat₁ : nodes₁[i]? = some ((twoPayload op).placed role (siblings a ++ siblings b) e) := by
    rw [hk₁.frame i h.not_below.1, h.at_i]
  have hb₁ : Resolvable nodes₁ (secondRole op) b none :=
    ⟨hk₁.spells h.second.spells h.disjoint, h.second.nodup, h.second.shape⟩
  have hfound : roleChild nodes₁ i (secondRole op) = .ok (start b none) := by
    have hle₁ := length_le_size a
    have hle₂ := length_le_size b
    have hlen : p.1.length = a.length := by rw [← length_siblings, hsib, length_siblings]
    have hne : firstRole op ≠ secondRole op := by
      cases op <;> simp [firstRole, secondRole]
    have hother : VntIrEdgeRole.root ≠ secondRole op := by
      cases op <;> simp [secondRole]
    rw [roleChild_at hat₁]
    show siblingRole nodes₁ (secondRole op) nodes₁.length (siblings a ++ siblings b).head? = _
    rw [head?_append_start, ← start_none, ← start_resolved hp,
      siblingRole_skip hs₁ hne (by rw [hk₁.length]; omega)]
    exact @siblingRole_start nodes₁ (secondRole op) .root b .nil hb₁.spells trivial hother _
      (by simp only [Hir.length]; rw [hk₁.length]; omega)
  obtain ⟨nodes₂, hrun₂, hk₂, hs₂⟩ := hnext nodes₁ hfound hb₁
  refine ⟨nodes₂, (andThen_ok hrun _).trans hrun₂, (hk₁.trans hk₂).mono fun j hj => ?_, ?_, ?_, hs₂, trivial⟩
  · rw [positions, ← List.append_assoc]
    exact List.mem_cons_of_mem _ (List.mem_append_left _ hj)
  · rw [hk₂.frame i h.not_below.2, hat₁, hsib, hq]
    rfl
  · have hstart : start q.1 none = start b none := by rw [start, hq]; rfl
    rw [hstart]
    refine hk₂.spells hs₁ fun j hj hjb => h.disjoint j hjb ?_
    rwa [positions_resolved hp] at hj

/-- Leaving a block undoes `enter`. -/
theorem leave_eq {r' : HirResolver} (h : r'.depth = r.enter.depth) :
    Binding.leave ⟨nodes, r'⟩ = ⟨nodes, r.leave r'⟩ := by
  have hdepth : r'.depth - 1 = r.depth := by
    rw [h]
    rfl
  simp only [Binding.leave, HirResolver.leave, hdepth]

theorem nodeBinds_two (op : HirTwo) (ha : Binds a) (hb : Binds b) : NodeBinds (.two i op a b .nil) := by
  intro fuel nodes r role e p hres hfuel hp
  simp only [Hir.size] at hfuel
  obtain ⟨f, rfl⟩ : ∃ f, fuel = f + 1 := ⟨fuel - 1, by omega⟩
  have hless₁ : 3 * a.size < f := by omega
  have hless₂ : 3 * b.size + 1 < f := by omega
  have hready := hres.twoReady
  have hat := hready.at_i
  have hshape := hres.shape
  simp only [Vnt.validateNodeShape, Bool.and_eq_true] at hshape
  have hfirst : ∀ {q : Hir × HirResolver}, Vnt.resolverBindExpr a r = some q →
      Follows nodes (firstRole op) a (start b none) q (bindChild f (firstRole op) i ⟨nodes, r⟩) := fun hq =>
    bindChild_follows hready.foundFirst (ha.node (Nat.le_of_eq hready.single)) hready.first hless₁ hq
  show Follows nodes role _ e p (resolverBindExpr (f + 1) (some i) ⟨nodes, r⟩)
  rw [resolverBindExpr]
  simp only [hat]
  cases op <;> simp only [Vnt.resolverBindExpr, bind, Option.bind_eq_some_iff, Option.some.injEq] at hp <;>
    obtain ⟨q₁, hq₁, q₂, hq₂, _, rfl, rfl⟩ := hp
  case whileNode =>
    have hsib := siblings_resolved hq₂
    refine @TwoReady.follows nodes role e i a b r q₁ .whileNode (q₂.1, q₁.2.leave q₂.2) hready hq₁
      hsib _ _ (hfirst hq₁) fun nodes₁ hfound hb₁ => ?_
    have hroom : b.size + Hir.nil.size ≤ nodes₁.length := hb₁.room
    obtain ⟨nodes₂, hrun, hk, hs⟩ := @bindRole_follows nodes₁ .body .root i b _ q₂ f .nil hfound hb.role hb₁ trivial
      (by decide) (by simp ) hroom hless₂ hq₂
    refine ⟨nodes₂, (andThen_ok hrun _).trans ?_, hk, hs⟩
    rw [leave_eq (resolverBindExpr_depth b hq₂)]
    rfl
  all_goals
    simp only [Bool.and_eq_true, beq_iff_eq] at hshape
    have hsingle : b.length ≤ 1 := Nat.le_of_eq hshape.1.1.1.2
    exact hready.follows hq₁ (siblings_resolved hq₂) (hfirst hq₁) fun nodes₁ hfound hb₁ =>
      bindChild_follows hfound (hb.node hsingle) hb₁ (by omega) hq₂

/-- The children of an `IF` node. -/
structure IfReady (nodes : List VntIrNode) (role : VntIrEdgeRole) (i : Nat) (c t e' : Hir) (e : Option Nat) : Prop where
  at_i : nodes[i]? = some ((plainNode .if).placed role (siblings c ++ (siblings t ++ siblings e')) e)
  not_below : i ∉ positions c ∧ i ∉ positions t ∧ i ∉ positions e'
  apart : (∀ j ∈ positions t, j ∉ positions c) ∧ (∀ j ∈ positions e', j ∉ positions c) ∧
    ∀ j ∈ positions e', j ∉ positions t
  condition : Resolvable nodes .condition c (start t (start e' none))
  thens : Resolvable nodes .then t (start e' none)
  elses : Resolvable nodes .else e' none
  single : c.length = 1
  room : c.size + t.size + e'.size < nodes.length

theorem Resolvable.ifReady (h : Resolvable nodes role (.ifNode i c t e' .nil) e) : IfReady nodes role i c t e' e := by
  have hnd := h.nodup
  have hshape := h.shape
  have hroom := h.room
  simp only [positions, List.append_nil, List.nodup_cons, List.mem_append, not_or, List.nodup_append] at hnd
  simp only [Vnt.validateNodeShape, Bool.and_eq_true, beq_iff_eq] at hshape
  simp only [Hir.size] at hroom
  obtain ⟨hi, hc, ⟨ht, he, hte⟩, hcte⟩ := hnd
  exact ⟨h.spells.1, hi, ⟨fun j hj hjc => hcte j hjc j (.inl hj) rfl, fun j hj hjc => hcte j hjc j (.inr hj) rfl,
    fun j hj hjt => hte j hjt j hj rfl⟩, ⟨h.spells.2.1, hc, hshape.1.1.1.2⟩, ⟨h.spells.2.2.1, ht, hshape.1.1.2⟩,
    ⟨h.spells.2.2.2.1, he, hshape.1.2⟩, hshape.1.1.1.1, by omega⟩

theorem length_resolved (hp : Vnt.resolverBindExpr h r = some p) : p.1.length = h.length := by
  rw [← length_siblings, siblings_resolved hp, length_siblings]

/-- After the condition, the branches as before. -/
theorem IfReady.thenFound (h : IfReady nodes role i c t e' e) (hp : Vnt.resolverBindExpr c r = some p)
    (hk : Kept nodes nodes₁ (positions c)) (hs : Spells nodes₁ .condition p.1 (start t (start e' none))) :
    roleChild nodes₁ i .then = .ok (start t none) := by
  have hroom := h.room
  have hle₁ := length_le_size c
  have hle₂ := length_le_size t
  have hle₃ := length_le_size e'
  have hlen := length_resolved hp
  have ht : Spells nodes₁ .then t (start e' none) := hk.spells h.thens.spells h.apart.1
  have he : Spells nodes₁ .else e' none := hk.spells h.elses.spells h.apart.2.1
  rw [roleChild_at ((hk.frame i h.not_below.1).trans h.at_i)]
  show siblingRole nodes₁ .then nodes₁.length (siblings c ++ (siblings t ++ siblings e')).head? = _
  rw [head?_append_start, head?_append_start, ← start_none, ← start_resolved hp,
    siblingRole_skip hs (by decide) (by rw [hk.length]; omega)]
  exact siblingRole_start ht he (by decide) (by rw [hk.length]; omega)

/-- After the condition and the first branch. -/
theorem IfReady.elseFound {nodes₂ : List VntIrNode} {r' : HirResolver} {q : Hir × HirResolver}
    (h : IfReady nodes role i c t e' e) (hp : Vnt.resolverBindExpr c r = some p)
    (hq : Vnt.resolverBindExpr t r' = some q) (hk₁ : Kept nodes nodes₁ (positions c))
    (hk₂ : Kept nodes₁ nodes₂ (positions t)) (hs₁ : Spells nodes₂ .condition p.1 (start t (start e' none)))
    (hs₂ : Spells nodes₂ .then q.1 (start e' none)) : roleChild nodes₂ i .else = .ok (start e' none) := by
  have hroom := h.room
  have hle₁ := length_le_size c
  have hle₂ := length_le_size t
  have hle₃ := length_le_size e'
  have hlen₁ := length_resolved hp
  have hlen₂ := length_resolved hq
  have hlength : nodes₂.length = nodes.length := hk₂.length.trans hk₁.length
  have he : Spells nodes₂ .else e' none := hk₂.spells (hk₁.spells h.elses.spells h.apart.2.1) h.apart.2.2
  rw [roleChild_at ((hk₂.frame i h.not_below.2.1).trans ((hk₁.frame i h.not_below.1).trans h.at_i))]
  show siblingRole nodes₂ .else nodes₂.length (siblings c ++ (siblings t ++ siblings e')).head? = _
  rw [head?_append_start, head?_append_start, ← start_none, ← start_resolved hp,
    siblingRole_skip hs₁ (by decide) (by rw [hlength]; omega), ← start_resolved hq,
    siblingRole_skip hs₂ (by decide) (by rw [hlength]; omega)]
  exact @siblingRole_start nodes₂ .else .root e' .nil he trivial (by decide) _
    (by simp only [Hir.length]; rw [hlength]; omega)

theorem nodeBinds_if (hc : Binds c) (ht : Binds t) (he : Binds e') : NodeBinds (.ifNode i c t e' .nil) := by
  intro fuel nodes r role e p hres hfuel hp
  simp only [Hir.size] at hfuel
  obtain ⟨f, rfl⟩ : ∃ f, fuel = f + 1 := ⟨fuel - 1, by omega⟩
  have hless₁ : 3 * c.size < f := by omega
  have hless₂ : 3 * t.size + 1 < f := by omega
  have hless₃ : 3 * e'.size + 1 < f := by omega
  have hready := hres.ifReady
  have hroom := hready.room
  have hat := hready.at_i
  simp only [Vnt.resolverBindExpr, bind, Option.bind_eq_some_iff, Option.some.injEq] at hp
  obtain ⟨q₁, hq₁, q₂, hq₂, q₃, hq₃, _, rfl, rfl⟩ := hp
  -- the condition
  have hfound₁ : roleChild nodes i .condition = .ok (start c none) := by
    rw [roleChild_at hat]
    show siblingRole nodes .condition nodes.length (siblings c ++ (siblings t ++ siblings e')).head? = _
    rw [head?_append_start, head?_append_start, ← start_none]
    exact siblingRole_head hready.condition.spells (ne_nil_of_length hready.single) (by omega)
  obtain ⟨nodes₁, hrun₁, hk₁, hs₁⟩ := bindChild_follows hfound₁ (hc.node (Nat.le_of_eq hready.single))
    hready.condition hless₁ hq₁
  -- the first branch
  have ht₁ : Resolvable nodes₁ .then t (start e' none) :=
    ⟨hk₁.spells hready.thens.spells hready.apart.1, hready.thens.nodup, hready.thens.shape⟩
  have he₁ : Spells nodes₁ .else e' none := hk₁.spells hready.elses.spells hready.apart.2.1
  obtain ⟨nodes₂, hrun₂, hk₂, hs₂⟩ := bindRole_follows (hready.thenFound hq₁ hk₁ hs₁) ht.role ht₁ he₁ (by decide)
    (fun j hj hje => hready.apart.2.2 j hje hj) (by rw [hk₁.length]; omega) hless₂ hq₂
  have hs₁₂ : Spells nodes₂ .condition q₁.1 (start t (start e' none)) := hk₂.spells hs₁ fun j hj hjt =>
    hready.apart.1 j hjt (by rwa [positions_resolved hq₁] at hj)
  -- the second branch
  have he₂ : Resolvable nodes₂ .else e' none :=
    ⟨hk₂.spells he₁ hready.apart.2.2, hready.elses.nodup, hready.elses.shape⟩
  have hroom₂ : e'.size + Hir.nil.size ≤ nodes₂.length := he₂.room
  obtain ⟨nodes₃, hrun₃, hk₃, hs₃⟩ := @bindRole_follows nodes₂ .else .root i e' _ q₃ f .nil
    (hready.elseFound hq₁ hq₂ hk₁ hk₂ hs₁₂ hs₂) he.role he₂ trivial (by decide) (by simp ) hroom₂ hless₃ hq₃
  have hdepth : q₃.2.depth = q₁.2.enter.depth :=
    (resolverBindExpr_depth e' hq₃).trans (resolverBindExpr_depth t hq₂)
  refine ⟨nodes₃, ?_, ((hk₁.trans hk₂).trans hk₃).mono fun j hj => ?_, ?_, ?_, ?_, hs₃, trivial⟩
  · show resolverBindExpr (f + 1) (some i) ⟨nodes, r⟩ = _
    rw [resolverBindExpr]
    simp only [hat]
    refine (andThen_ok hrun₁ _).trans ((andThen_ok hrun₂ _).trans ((andThen_ok hrun₃ _).trans ?_))
    rw [leave_eq hdepth]
    rfl
  · rw [positions, ← List.append_assoc, ← List.append_assoc]
    exact List.mem_cons_of_mem _ (List.mem_append_left _ hj)
  · rw [hk₃.frame i hready.not_below.2.2, hk₂.frame i hready.not_below.2.1, hk₁.frame i hready.not_below.1, hat,
      siblings_resolved hq₁, siblings_resolved hq₂, siblings_resolved hq₃]
    rfl
  · rw [start_resolved hq₂, start_resolved hq₃]
    refine hk₃.spells hs₁₂ fun j hj hje => hready.apart.2.1 j hje ?_
    rwa [positions_resolved hq₁] at hj
  · rw [start_resolved hq₃]
    refine hk₃.spells hs₂ fun j hj hje => hready.apart.2.2 j hje ?_
    rwa [positions_resolved hq₂] at hj

/-- **`resolver_bind_expr` follows the tree's resolver.** -/
theorem binds (h : Hir) : Binds h := by
  induction h with
  | nil => exact binds_nil
  | leaf i op n hn => exact binds_append rfl (nodeBinds_leaf op) hn
  | one i op a n ha hn => exact binds_append rfl (nodeBinds_one op ha) hn
  | two i op a b n ha hb hn => exact binds_append rfl (nodeBinds_two op ha hb) hn
  | ifNode i c t e n hc ht he hn => exact binds_append rfl (nodeBinds_if hc ht he) hn

end Vnt.Arena
