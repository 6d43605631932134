import Vnt.Arena.FoldValid

/-!
# `Arena.PropagateValid` — propagation ends and only substitutes

The propagation passes walk down the tree with a set of known constants and change nothing but variables. What they
need to go on (a name, a child with a role, the next sibling) is there in every tree.
-/

namespace Vnt.Arena

open Lib

variable {nodes : List VntIrNode}

/-- The pass has ended, and `Substituted` says what it has done to the array. -/
def Propagates (s : Facts) (run : Run Facts) : Prop := ∃ s', run = .ok s' ∧ Substituted s.nodes s'.nodes

theorem NodeFits.name {n : VntIrNode} {cs : List Nat} {op : VntIrOpcode} (h : NodeFits nodes n cs)
    (hop : n.opcode = some op) (htext : op.hasText = true) : ∃ x, n.name = .ok x := by
  obtain ⟨op', hop', hpay, -⟩ := h.opcode
  obtain rfl : op = op' := Option.some.inj (hop.symm.trans hop')
  obtain ⟨t, ht⟩ := hpay.text htext
  exact ⟨t, by unfold VntIrNode.name; rw [ht]; rfl⟩

theorem hirChildRole_tree {fuel index : Nat} {role : VntIrEdgeRole} {n : VntIrNode} {ch : Forest}
    (h : Tree nodes index n ch) (hf : ch.indices.length ≤ fuel) :
    ∃ r, hirChildRole fuel nodes index role = .ok r ∧ ∀ c, r = some c → c ∈ ch.roots := by
  have hroots := (Forest.roots_sublist_indices ch).length_le
  simp only [hirChildRole, access_eq_ok.mpr h.at_index, bind, Except.bind]
  exact siblingRole_chain h.linked.chain (by omega)

theorem envAfterTarget_total {index : Nat} {n : VntIrNode} {ch : Forest} (h : Tree nodes index n ch)
    {target : Option Nat} (ht : ∀ c, target = some c → c ∈ ch.roots) (env : HirConstantEnvironment) :
    ∃ env', envAfterTarget nodes target env = .ok env' := by
  cases target with
  | none => exact ⟨_, rfl⟩
  | some c =>
      obtain ⟨m, sub, htree, -⟩ := h.grove.child (ht c rfl)
      simp only [envAfterTarget, access_eq_ok.mpr htree.at_index, bind, Except.bind, pure, Except.pure]
      split
      · rename_i hop
        obtain ⟨x, hx⟩ := htree.nodeFits.name hop rfl
        rw [hx]
        exact ⟨_, rfl⟩
      · exact ⟨_, rfl⟩

/-! ## Expressions -/

/-- One node, given what the loop does to its children. -/
theorem hirSubstituteExpression_of_children {s : Facts} {fuel index : Nat} {n : VntIrNode} {ch : Forest}
    (h : Tree s.nodes index n ch) (hf : ch.indices.length ≤ fuel)
    (hch : Propagates s (substituteChildren fuel s n.firstChild)) :
    Propagates s (hirSubstituteExpression (fuel + 1) s index) := by
  obtain ⟨s', hrun, hsub⟩ := hch
  unfold Propagates
  simp only [hirSubstituteExpression, h.at_index]
  split
  · rename_i hop
    obtain ⟨x, hx⟩ := h.nodeFits.name hop rfl
    simp only [hx, bind, Except.bind, pure, Except.pure]
    cases hirConstantFind s.env x with
    | none => exact ⟨_, rfl, Substituted.refl _⟩
    | some c => exact ⟨_, rfl, Substituted.set h.at_index hop c⟩
  split
  · simp only [hrun, bind, Except.bind, pure, Except.pure]
    exact ⟨_, rfl, hsub⟩
  split
  · obtain ⟨target, htarget, hmem⟩ : ∃ r, hirChildRole fuel s.nodes index .target = .ok r ∧
        ∀ c, r = some c → c ∈ ch.roots := hirChildRole_tree h hf
    obtain ⟨env, henv⟩ := envAfterTarget_total h hmem s.env
    simp only [htarget, henv, bind, Except.bind, pure, Except.pure]
    exact ⟨_, rfl, Substituted.refl _⟩
  split
  · exact ⟨_, rfl, Substituted.refl _⟩
  · exact ⟨s', hrun, hsub⟩

theorem substituteChildren_propagates (f : Forest) : ∀ (s : Facts) (fuel : Nat) (l : Option Nat), Grove s.nodes l f →
    2 * f.indices.length ≤ fuel → Propagates s (substituteChildren fuel s l) := by
  induction f with
  | nil =>
      intro s fuel l hg _
      obtain rfl : l = none := hg.linked
      exact ⟨s, by cases fuel <;> rfl, Substituted.refl _⟩
  | node i ch sib ihc ihs =>
      intro s fuel l hg hf
      obtain ⟨rfl, n, htree, hrest⟩ := hg.cons
      rw [Forest.indices_node, List.length_cons, List.length_append] at hf
      obtain ⟨fuel, rfl⟩ : ∃ k, fuel = k + 2 := ⟨fuel - 2, by omega⟩
      obtain ⟨s₁, hrun₁, hsub₁⟩ :=
        hirSubstituteExpression_of_children htree (by omega) (ihc s fuel n.firstChild htree.grove (by omega))
      obtain ⟨n₁, htree₁, -, hnext, -⟩ := hsub₁.tree htree
      obtain ⟨s₂, hrun₂, hsub₂⟩ := ihs s₁ (fuel + 1) n.nextSibling (hsub₁.grove hrest) (by omega)
      refine ⟨s₂, ?_, hsub₁.trans hsub₂⟩
      rw [← hnext] at hrun₂
      simp only [substituteChildren, hrun₁, access_eq_ok.mpr htree₁.at_index, hrun₂, bind, Except.bind]

theorem hirSubstituteExpression_propagates {s : Facts} {fuel index : Nat} {n : VntIrNode} {ch : Forest}
    (h : Tree s.nodes index n ch) (hf : 2 * ch.indices.length < fuel) :
    Propagates s (hirSubstituteExpression fuel s index) := by
  obtain ⟨fuel, rfl⟩ : ∃ k, fuel = k + 1 := ⟨fuel - 1, by omega⟩
  exact hirSubstituteExpression_of_children h (by omega)
    (substituteChildren_propagates ch s fuel n.firstChild h.grove (by omega))

theorem substituteLink_propagates {s : Facts} {fuel index : Nat} {n : VntIrNode} {ch : Forest}
    (h : Tree s.nodes index n ch) (hf : 2 * ch.indices.length < fuel) {l : Option Nat}
    (hl : ∀ c, l = some c → c ∈ ch.roots) : Propagates s (substituteLink fuel s l) := by
  cases l with
  | none => exact ⟨s, rfl, Substituted.refl _⟩
  | some c =>
      obtain ⟨m, sub, htree, hlt⟩ := h.grove.child (hl c rfl)
      exact hirSubstituteExpression_propagates htree (by omega)

theorem childrenContainCall_total (f : Forest) : ∀ (fuel : Nat) (l : Option Nat), Grove nodes l f →
    2 * f.indices.length ≤ fuel → ∃ b, childrenContainCall fuel nodes l = .ok b := by
  induction f with
  | nil =>
      intro fuel l hg _
      obtain rfl : l = none := hg.linked
      exact ⟨false, by cases fuel <;> rfl⟩
  | node i ch sib ihc ihs =>
      intro fuel l hg hf
      obtain ⟨rfl, n, htree, hrest⟩ := hg.cons
      rw [Forest.indices_node, List.length_cons, List.length_append] at hf
      obtain ⟨fuel, rfl⟩ : ∃ k, fuel = k + 2 := ⟨fuel - 2, by omega⟩
      obtain ⟨b, hb⟩ := ihc fuel n.firstChild htree.grove (by omega)
      obtain ⟨b', hb'⟩ := ihs (fuel + 1) n.nextSibling hrest (by omega)
      simp only [childrenContainCall, hirContainsCall, htree.at_index, access_eq_ok.mpr htree.at_index, hb, hb', bind,
        Except.bind, pure, Except.pure]
      by_cases hcall : n.opcode = some .call
      · rw [if_pos hcall]
        exact ⟨_, rfl⟩
      · rw [if_neg hcall]
        cases b
        · exact ⟨_, rfl⟩
        · exact ⟨_, rfl⟩

theorem hirContainsCall_total {fuel index : Nat} {n : VntIrNode} {ch : Forest} (h : Tree nodes index n ch)
    (hf : 2 * ch.indices.length < fuel) : ∃ b, hirContainsCall fuel nodes index = .ok b := by
  obtain ⟨fuel, rfl⟩ : ∃ k, fuel = k + 1 := ⟨fuel - 1, by omega⟩
  simp only [hirContainsCall, h.at_index]
  split
  · exact ⟨_, rfl⟩
  · exact childrenContainCall_total ch fuel n.firstChild h.grove (by omega)

/-! ## Statements -/

/-- What the four functions do within the given fuel. -/
structure Propagation (fuel : Nat) : Prop where
  statement : ∀ (s : Facts) (index : Nat) (n : VntIrNode) (ch : Forest), Tree s.nodes index n ch →
    3 * ch.indices.length + 2 ≤ fuel → Propagates s (hirPropagateStatement fuel s index)
  branches : ∀ (s : Facts) (l : Option Nat) (f : Forest), Grove s.nodes l f → 3 * f.indices.length ≤ fuel →
    Propagates s (propagateBranches fuel s l)
  sequence : ∀ (s : Facts) (index : Nat) (n : VntIrNode) (ch : Forest), Tree s.nodes index n ch →
    3 * ch.indices.length + 1 ≤ fuel → Propagates s (hirPropagateSequence fuel s index)
  statements : ∀ (s : Facts) (l : Option Nat) (f : Forest), Grove s.nodes l f → 3 * f.indices.length ≤ fuel →
    Propagates s (propagateStatements fuel s l)

/-- The search for a call, after a part of the tree has been substituted. -/
theorem Substituted.containsCall {s t : Facts} {fuel index : Nat} {n : VntIrNode} {ch : Forest}
    (h : Substituted s.nodes t.nodes) (ht : Tree s.nodes index n ch) (hf : 2 * ch.indices.length < fuel) :
    ∃ b, hirContainsCall fuel t.nodes index = .ok b := by
  obtain ⟨n', ht', -⟩ := h.tree ht
  exact hirContainsCall_total ht' hf

theorem hirPropagateStatement_step {fuel : Nat} (ih : Propagation fuel) {s : Facts} {index : Nat} {n : VntIrNode}
    {ch : Forest} (h : Tree s.nodes index n ch) (hf : 3 * ch.indices.length + 2 ≤ fuel + 1) :
    Propagates s (hirPropagateStatement (fuel + 1) s index) := by
  have hchild : ∀ role, ∃ r, hirChildRole fuel s.nodes index role = .ok r ∧ ∀ c, r = some c → c ∈ ch.roots :=
    fun role => hirChildRole_tree h (by omega)
  have hcall : ∀ {t : Facts}, Substituted s.nodes t.nodes → ∃ b, hirContainsCall fuel t.nodes index = .ok b :=
    fun hsub => hsub.containsCall h (by omega)
  unfold Propagates
  simp only [hirPropagateStatement, access_eq_ok.mpr h.at_index, bind, Except.bind, pure, Except.pure]
  split
  · exact ⟨_, rfl, Substituted.refl _⟩
  split
  · -- `IF`: its condition, then its arms
    obtain ⟨condition, hcond, hmem⟩ := hchild .condition
    obtain ⟨s₁, hrun₁, hsub₁⟩ := substituteLink_propagates h (by omega : 2 * ch.indices.length < fuel) hmem
    obtain ⟨s₂, hrun₂, hsub₂⟩ := ih.branches s₁ n.firstChild ch (hsub₁.grove h.grove) (by omega)
    obtain ⟨b, hb⟩ := hcall (hsub₁.trans hsub₂)
    simp only [hcond, hrun₁, hrun₂, hb, ite_self]
    exact ⟨_, rfl, hsub₁.trans hsub₂⟩
  split
  · -- `FUNCTION`: a `PROGRAM` below it
    obtain ⟨body, hbody, hmem⟩ := hchild .body
    obtain ⟨b, hb⟩ := hcall (Substituted.refl s.nodes)
    simp only [hbody]
    cases body with
    | none =>
        simp only [hb]
        cases b <;> exact ⟨_, rfl, Substituted.refl _⟩
    | some body =>
        obtain ⟨m, sub, htree, hlt⟩ := h.grove.child (hmem body rfl)
        simp only [access_eq_ok.mpr htree.at_index]
        split
        · obtain ⟨s₁, hrun₁, hsub₁⟩ := ih.sequence { s with env := [] } body m sub htree (by omega)
          obtain ⟨b₁, hb₁⟩ := hcall hsub₁
          simp only [hrun₁, hb₁]
          cases b₁ <;> exact ⟨_, rfl, hsub₁⟩
        · simp only [hb]
          cases b <;> exact ⟨_, rfl, Substituted.refl _⟩
  split
  · -- a nested `PROGRAM`
    obtain ⟨s₁, hrun₁, hsub₁⟩ := ih.sequence s index n ch h (by omega)
    obtain ⟨b, hb⟩ := hcall hsub₁
    simp only [hrun₁, hb]
    cases b <;> exact ⟨_, rfl, hsub₁⟩
  split
  · -- a declaration or a reassignment
    rename_i hop
    obtain ⟨value, hvalue, hmem⟩ := hchild .value
    obtain ⟨s₁, hrun₁, hsub₁⟩ := substituteLink_propagates h (by omega : 2 * ch.indices.length < fuel) hmem
    obtain ⟨b, hb⟩ := hcall hsub₁
    obtain ⟨x, hx⟩ : ∃ x, n.name = .ok x := by
      rcases hop with hop | hop
      · exact h.nodeFits.name hop rfl
      · exact h.nodeFits.name hop rfl
    simp only [hvalue, hrun₁, hx, hb]
    cases b <;> exact ⟨_, rfl, hsub₁⟩
  split
  · -- an assignment
    obtain ⟨target, htarget, hmem⟩ := hchild .target
    obtain ⟨env, henv⟩ := envAfterTarget_total h hmem s.env
    obtain ⟨b, hb⟩ := hcall (Substituted.refl s.nodes)
    simp only [htarget, henv, hb]
    cases b <;> exact ⟨_, rfl, Substituted.refl _⟩
  · obtain ⟨s₁, hrun₁, hsub₁⟩ := substituteChildren_propagates ch s fuel n.firstChild h.grove (by omega)
    obtain ⟨b, hb⟩ := hcall hsub₁
    simp only [hrun₁, hb]
    cases b <;> exact ⟨_, rfl, hsub₁⟩

theorem propagation (fuel : Nat) : Propagation fuel := by
  induction fuel with
  | zero =>
      refine ⟨fun s index n ch _ hf => by omega, fun s l f hg hf => ?_, fun s index n ch _ hf => by omega,
        fun s l f hg hf => ?_⟩
      all_goals
        cases f with
        | nil =>
            obtain rfl : l = none := hg.linked
            exact ⟨s, rfl, Substituted.refl _⟩
        | node i ch sib =>
            rw [Forest.indices_node, List.length_cons] at hf
            omega
  | succ fuel ih =>
      refine ⟨fun s index n ch h hf => hirPropagateStatement_step ih h hf, fun s l f hg hf => ?_,
        fun s index n ch h hf => ?_, fun s l f hg hf => ?_⟩
      · cases f with
        | nil =>
            obtain rfl : l = none := hg.linked
            exact ⟨s, rfl, Substituted.refl _⟩
        | node i ch sib =>
            obtain ⟨rfl, n, htree, hrest⟩ := hg.cons
            rw [Forest.indices_node, List.length_cons, List.length_append] at hf
            unfold Propagates
            simp only [propagateBranches, access_eq_ok.mpr htree.at_index, bind, Except.bind]
            split
            · obtain ⟨s₁, hrun₁, hsub₁⟩ := ih.sequence s i n ch htree (by omega)
              obtain ⟨s₂, hrun₂, hsub₂⟩ := ih.branches { s₁ with env := s.env } n.nextSibling sib
                (hsub₁.grove hrest) (by omega)
              simp only [hrun₁]
              exact ⟨s₂, hrun₂, hsub₁.trans hsub₂⟩
            · exact ih.branches s n.nextSibling sib hrest (by omega)
      · simp only [Propagates, hirPropagateSequence, access_eq_ok.mpr h.at_index, bind, Except.bind]
        exact ih.statements s n.firstChild ch h.grove (by omega)
      · cases f with
        | nil =>
            obtain rfl : l = none := hg.linked
            exact ⟨s, rfl, Substituted.refl _⟩
        | node i ch sib =>
            obtain ⟨rfl, n, htree, hrest⟩ := hg.cons
            rw [Forest.indices_node, List.length_cons, List.length_append] at hf
            unfold Propagates
            simp only [propagateStatements, access_eq_ok.mpr htree.at_index, bind, Except.bind]
            split
            · obtain ⟨s₁, hrun₁, hsub₁⟩ := ih.statement s i n ch htree (by omega)
              obtain ⟨s₂, hrun₂, hsub₂⟩ := ih.statements s₁ n.nextSibling sib (hsub₁.grove hrest) (by omega)
              simp only [hrun₁]
              exact ⟨s₂, hrun₂, hsub₁.trans hsub₂⟩
            · exact ih.statements s n.nextSibling sib hrest (by omega)

end Vnt.Arena
