import Vnt.Arena.WellFormed

/-!
# `Arena.Rework` — passes that change a tree in place

A pass over a node changes that node and the nodes below it, keeps its role and its place among its siblings, and
leaves a tree of some of the old nodes. `NodeReworked` says so, `Reworked` says the same of a chain of siblings. The
two compose, so each pass only has to show what it does to one node whose children are done.
-/

namespace Vnt.Arena

open Lib

variable {nodes nodes' nodes'' : List VntIrNode}

/-! ## What depends on which nodes -/

theorem rolesOf_congr {cs : List Nat} (h : ∀ c ∈ cs, nodes'[c]? = nodes[c]?) : rolesOf nodes' cs = rolesOf nodes cs :=
  List.map_congr_left fun c hc => by rw [h c hc]

theorem NodeFits.congr {n : VntIrNode} {cs : List Nat} (h : NodeFits nodes n cs)
    (hroles : rolesOf nodes' cs = rolesOf nodes cs) : NodeFits nodes' n cs := by
  obtain ⟨op, hop, hpay, hshape⟩ := h.opcode
  exact ⟨h.childCount, h.lastChild, op, hop, hpay, hroles ▸ hshape⟩

theorem fits_nil : Fits nodes .nil := fun p hp => by cases hp

theorem fits_node {i : Nat} {ch sib : Forest} : Fits nodes (.node i ch sib) ↔
    (∃ n, nodes[i]? = some n ∧ NodeFits nodes n ch.roots) ∧ Fits nodes ch ∧ Fits nodes sib := by
  constructor
  · intro h
    refine ⟨h (i, ch.roots) List.mem_cons_self, fun p hp => h p ?_, fun p hp => h p ?_⟩
    · exact List.mem_cons_of_mem _ (List.mem_append_left _ hp)
    · exact List.mem_cons_of_mem _ (List.mem_append_right _ hp)
  · rintro ⟨hi, hch, hsib⟩ p hp
    rcases List.mem_cons.mp hp with rfl | hp
    · exact hi
    · rcases List.mem_append.mp hp with hp | hp
      · exact hch p hp
      · exact hsib p hp

theorem Fits.frame {f : Forest} (h : Fits nodes f) (hsame : ∀ i ∈ f.indices, nodes'[i]? = nodes[i]?) :
    Fits nodes' f := by
  induction f with
  | nil => exact fits_nil
  | node i ch sib ihc ihs =>
      obtain ⟨⟨n, hn, hfit⟩, hch, hsib⟩ := fits_node.mp h
      have hbelow : ∀ j ∈ ch.indices, nodes'[j]? = nodes[j]? :=
        fun j hj => hsame j (List.mem_cons_of_mem _ (List.mem_append_left _ hj))
      refine fits_node.mpr ⟨⟨n, ?_, ?_⟩, ihc hch hbelow, ihs hsib fun j hj => ?_⟩
      · rw [hsame i List.mem_cons_self, hn]
      · exact hfit.congr (rolesOf_congr fun c hc => hbelow c (Forest.mem_indices_of_mem_roots hc))
      · exact hsame j (List.mem_cons_of_mem _ (List.mem_append_right _ hj))

theorem fits_ofTrees {ts : List (Nat × Forest)} : Fits nodes (.ofTrees ts) ↔
    ∀ t ∈ ts, (∃ n, nodes[t.1]? = some n ∧ NodeFits nodes n t.2.roots) ∧ Fits nodes t.2 := by
  induction ts with
  | nil => simp [Forest.ofTrees, fits_nil]
  | cons t ts ih =>
      rw [Forest.ofTrees, fits_node, ih, List.forall_mem_cons, and_assoc]

theorem getElem?_set_self' {i : Nat} {n m : VntIrNode} (h : nodes[i]? = some n) : (nodes.set i m)[i]? = some m := by
  rw [List.getElem?_set_self (List.getElem?_eq_some_iff.mp h).1]

theorem getElem?_set_ne' {i j : Nat} {m : VntIrNode} (h : i ≠ j) : (nodes.set i m)[j]? = nodes[j]? := by
  rw [List.getElem?_set_ne h]

/-! ## Reworked trees -/

/-- A node as its opcode asks, but for the number and the last of its children. -/
def Loose (nodes : List VntIrNode) (n : VntIrNode) (cs : List Nat) : Prop :=
  ∃ op, n.opcode = some op ∧ PayloadFits n op ∧ Shape (rolesOf nodes cs) op

/-- The chain from `l` on spelled `f` and spells `f'` now. -/
structure Reworked (nodes nodes' : List VntIrNode) (l : Option Nat) (f f' : Forest) : Prop where
  length : nodes'.length = nodes.length
  frame : ∀ j, j ∉ f.indices → nodes'[j]? = nodes[j]?
  linked : Linked nodes' l f'
  fits : Fits nodes' f'
  roots : f'.roots = f.roots
  roles : rolesOf nodes' f.roots = rolesOf nodes f.roots
  kept : f'.indices.Sublist f.indices

/-- Node `i` had the forest `ch` below it and has `ch'` now; `Q` is what is known of the node. -/
structure NodeReworked (Q : List VntIrNode → VntIrNode → List Nat → Prop) (nodes nodes' : List VntIrNode) (i : Nat)
    (ch ch' : Forest) : Prop where
  length : nodes'.length = nodes.length
  frame : ∀ j, j ∉ i :: ch.indices → nodes'[j]? = nodes[j]?
  node : ∃ n n', nodes[i]? = some n ∧ nodes'[i]? = some n' ∧ n'.role = n.role ∧ n'.nextSibling = n.nextSibling ∧
    Linked nodes' n'.firstChild ch' ∧ Q nodes' n' ch'.roots
  program : ∀ n n' : VntIrNode, nodes[i]? = some n → nodes'[i]? = some n' → n.opcode = some .program →
    n'.opcode = some .program
  fits : Fits nodes' ch'
  kept : ch'.indices.Sublist ch.indices

theorem Reworked.nil : Reworked nodes nodes none .nil .nil where
  length := rfl
  frame := fun _ _ => rfl
  linked := rfl
  fits := fits_nil
  roots := rfl
  roles := rfl
  kept := List.Sublist.refl _

/-- Once the children are done, the node stands as it did. -/
theorem NodeReworked.of_children {i : Nat} {n : VntIrNode} {ch ch' : Forest} (hn : nodes[i]? = some n)
    (hi : i ∉ ch.indices) (hfit : NodeFits nodes n ch.roots) (h : Reworked nodes nodes' n.firstChild ch ch') :
    NodeReworked NodeFits nodes nodes' i ch ch' where
  length := h.length
  frame := fun j hj => h.frame j fun hmem => hj (List.mem_cons_of_mem _ hmem)
  node := by
    refine ⟨n, n, hn, ?_, rfl, rfl, h.linked, ?_⟩
    · rw [h.frame i hi, hn]
    · rw [h.roots]
      exact hfit.congr h.roles
  program := by
    intro m m' hm hm' hop
    rw [h.frame i hi, hm] at hm'
    obtain rfl : m = m' := Option.some.inj hm'
    exact hop
  fits := h.fits
  kept := h.kept

theorem NodeReworked.trans {P Q : List VntIrNode → VntIrNode → List Nat → Prop} {i : Nat} {ch ch' ch'' : Forest}
    (h : NodeReworked P nodes nodes' i ch ch') (h' : NodeReworked Q nodes' nodes'' i ch' ch'') :
    NodeReworked Q nodes nodes'' i ch ch'' where
  length := h'.length.trans h.length
  frame := by
    intro j hj
    rw [h'.frame j, h.frame j hj]
    intro hmem
    rcases List.mem_cons.mp hmem with rfl | hmem
    · exact hj List.mem_cons_self
    · exact hj (List.mem_cons_of_mem _ (h.kept.subset hmem))
  node := by
    obtain ⟨n, n₁, hn, hn₁, hrole, hnext, -, -⟩ := h.node
    obtain ⟨m, n₂, hm, hn₂, hrole', hnext', hlinked, hq⟩ := h'.node
    obtain rfl : n₁ = m := Option.some.inj (hn₁.symm.trans hm)
    exact ⟨n, n₂, hn, hn₂, hrole'.trans hrole, hnext'.trans hnext, hlinked, hq⟩
  program := by
    intro n n₂ hn hn₂ hop
    obtain ⟨-, n₁, -, hn₁, -⟩ := h.node
    exact h'.program n₁ n₂ hn₁ hn₂ (h.program n n₁ hn hn₁ hop)
  fits := h'.fits
  kept := h'.kept.trans h.kept

/-- A node that is done, and then its later siblings. -/
theorem NodeReworked.cons {i : Nat} {n : VntIrNode} {ch ch' sib sib' : Forest}
    (hnd : (Forest.node i ch sib).indices.Nodup) (hn : nodes[i]? = some n)
    (h : NodeReworked NodeFits nodes nodes' i ch ch') (h' : Reworked nodes' nodes'' n.nextSibling sib sib') :
    Reworked nodes nodes'' (some i) (.node i ch sib) (.node i ch' sib') := by
  rw [Forest.indices_node, List.nodup_cons, List.nodup_append] at hnd
  obtain ⟨hi, -, -, hdisj⟩ := hnd
  rw [List.mem_append, not_or] at hi
  obtain ⟨m, n', hm, hn', hrole, hnext, hlinked, hfit⟩ := h.node
  obtain rfl : n = m := Option.some.inj (hn.symm.trans hm)
  have hbelow : ∀ j ∈ ch'.indices, nodes''[j]? = nodes'[j]? :=
    fun j hj => h'.frame j fun hmem => hdisj j (h.kept.subset hj) j hmem rfl
  have hn'' : nodes''[i]? = some n' := by rw [h'.frame i hi.2, hn']
  refine ⟨h'.length.trans h.length, ?_, ?_, ?_, ?_, ?_, ?_⟩
  · intro j hj
    rw [Forest.indices_node, List.mem_cons, List.mem_append, not_or, not_or] at hj
    rw [h'.frame j hj.2.2, h.frame j]
    rw [List.mem_cons, not_or]
    exact ⟨hj.1, hj.2.1⟩
  · refine ⟨rfl, n', hn'', hlinked.frame hbelow, ?_⟩
    rw [hnext]
    exact h'.linked
  · refine fits_node.mpr ⟨⟨n', hn'', ?_⟩, h.fits.frame hbelow, h'.fits⟩
    exact hfit.congr (rolesOf_congr fun c hc => hbelow c (Forest.mem_indices_of_mem_roots hc))
  · rw [Forest.roots_node, Forest.roots_node, h'.roots]
  · rw [Forest.roots_node]
    have hsib : rolesOf nodes' sib.roots = rolesOf nodes sib.roots := by
      refine rolesOf_congr fun c hc => h.frame c ?_
      have hc' := Forest.mem_indices_of_mem_roots hc
      rw [List.mem_cons, not_or]
      refine ⟨?_, fun hmem => hdisj c hmem c hc' rfl⟩
      rintro rfl
      exact hi.2 hc'
    have hroles := h'.roles.trans hsib
    unfold rolesOf at hroles ⊢
    rw [List.map_cons, List.map_cons, hroles, hn'', hn, Option.bind_some, Option.bind_some, hrole]
  · rw [Forest.indices_node, Forest.indices_node]
    exact (h.kept.append h'.kept).cons_cons i

/-- What later siblings need after a node is done. -/
theorem NodeReworked.siblings {P : List VntIrNode → VntIrNode → List Nat → Prop} {i : Nat} {l : Option Nat}
    {ch ch' sib : Forest} (hnd : (Forest.node i ch sib).indices.Nodup) (h : NodeReworked P nodes nodes' i ch ch')
    (hlinked : Linked nodes l sib) (hfits : Fits nodes sib) : Linked nodes' l sib ∧ Fits nodes' sib := by
  rw [Forest.indices_node, List.nodup_cons, List.nodup_append] at hnd
  obtain ⟨hi, -, -, hdisj⟩ := hnd
  have hsame : ∀ j ∈ sib.indices, nodes'[j]? = nodes[j]? := by
    intro j hj
    refine h.frame j ?_
    rw [List.mem_cons, not_or]
    refine ⟨?_, fun hmem => hdisj j hmem j hj rfl⟩
    rintro rfl
    exact hi (List.mem_append_right _ hj)
  exact ⟨hlinked.frame hsame, hfits.frame hsame⟩

end Vnt.Arena
