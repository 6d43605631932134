import Mathlib.Data.List.Perm.Basic
import Mathlib.Data.List.Nodup
import Mathlib.Data.List.Range
import Mathlib.Data.List.Count

/-!
# `Lib.Forest` — ordered forests linked by first child and next sibling

A store of nodes in which every node names its first child and its next sibling holds an ordered forest when
following the links meets finitely many nodes. `Forest` is that forest, by node numbers; `Linked` says that the
links from one place on spell it, `Chain` the same for one list of siblings.
-/

namespace Vnt.Lib

/-- An ordered forest of numbered nodes: the first node with its children, and its later siblings. -/
inductive Forest where
  | nil
  | node (i : Nat) (children siblings : Forest)
  deriving DecidableEq, Repr

namespace Forest

/-- The nodes without a parent, in order. -/
def roots : Forest → List Nat
  | nil => []
  | node i _ sib => i :: sib.roots

/-- All nodes, a parent before its children and a node before its siblings. -/
def indices : Forest → List Nat
  | nil => []
  | node i ch sib => i :: (ch.indices ++ sib.indices)

/-- Every node with the list of its children. -/
@[simp] def families : Forest → List (Nat × List Nat)
  | nil => []
  | node i ch sib => (i, ch.roots) :: (ch.families ++ sib.families)

/-- The roots, each with the forest below it. -/
@[simp] def trees : Forest → List (Nat × Forest)
  | nil => []
  | node i ch sib => (i, ch) :: sib.trees

/-- The forest of a list of trees. -/
@[simp] def ofTrees : List (Nat × Forest) → Forest
  | [] => nil
  | (i, ch) :: ts => node i ch (ofTrees ts)

/-- All nodes of a list of trees. -/
def treeIndices (ts : List (Nat × Forest)) : List Nat := ts.flatMap fun t => t.1 :: t.2.indices

@[simp] theorem roots_nil : nil.roots = [] := rfl
@[simp] theorem roots_node (i : Nat) (ch sib : Forest) : (node i ch sib).roots = i :: sib.roots := rfl
@[simp] theorem indices_nil : nil.indices = [] := rfl
@[simp] theorem indices_node (i : Nat) (ch sib : Forest) :
    (node i ch sib).indices = i :: (ch.indices ++ sib.indices) := rfl

theorem treeIndices_cons (t : Nat × Forest) (ts : List (Nat × Forest)) :
    treeIndices (t :: ts) = t.1 :: (t.2.indices ++ treeIndices ts) := by
  simp [treeIndices]

theorem treeIndices_append (ts us : List (Nat × Forest)) :
    treeIndices (ts ++ us) = treeIndices ts ++ treeIndices us := by
  simp [treeIndices]

theorem treeIndices_reverse (ts : List (Nat × Forest)) : (treeIndices ts.reverse).Perm (treeIndices ts) :=
  (List.reverse_perm ts).flatMap_right _

theorem ofTrees_trees (f : Forest) : ofTrees f.trees = f := by
  induction f with
  | nil => rfl
  | node i ch sib _ ih => rw [trees, ofTrees, ih]

theorem indices_ofTrees (ts : List (Nat × Forest)) : (ofTrees ts).indices = treeIndices ts := by
  induction ts with
  | nil => rfl
  | cons t ts ih => rw [treeIndices_cons, ofTrees, indices_node, ih]

theorem roots_ofTrees (ts : List (Nat × Forest)) : (ofTrees ts).roots = ts.map Prod.fst := by
  induction ts with
  | nil => rfl
  | cons t ts ih => rw [ofTrees, roots_node, ih, List.map_cons]

theorem treeIndices_trees (f : Forest) : treeIndices f.trees = f.indices := by
  rw [← indices_ofTrees, ofTrees_trees]

theorem map_fst_trees (f : Forest) : f.trees.map Prod.fst = f.roots := by
  rw [← roots_ofTrees, ofTrees_trees]

theorem mem_indices_of_mem_roots {f : Forest} {i : Nat} (h : i ∈ f.roots) : i ∈ f.indices := by
  induction f with
  | nil => cases h
  | node j ch sib _ ih =>
      rcases List.mem_cons.mp h with rfl | h
      · exact List.mem_cons_self
      · exact List.mem_cons_of_mem _ (List.mem_append_right _ (ih h))

theorem roots_sublist_indices (f : Forest) : f.roots.Sublist f.indices := by
  induction f with
  | nil => exact List.Sublist.slnil
  | node j ch sib _ ih => exact List.Sublist.cons_cons _ (ih.trans (List.sublist_append_right _ _))

theorem map_fst_sublist (ts : List (Nat × Forest)) : (ts.map Prod.fst).Sublist (treeIndices ts) := by
  rw [← roots_ofTrees, ← indices_ofTrees]
  exact roots_sublist_indices _

theorem families_fst (f : Forest) : f.families.map Prod.fst = f.indices := by
  induction f with
  | nil => rfl
  | node j ch sib ihc ihs => rw [families, List.map_cons, List.map_append, ihc, ihs, indices_node]

/-- Every node is a root or a child of exactly one node. -/
theorem families_perm (f : Forest) : (f.roots ++ f.families.flatMap Prod.snd).Perm f.indices := by
  induction f with
  | nil => exact List.Perm.nil
  | node j ch sib ihc ihs =>
      rw [families, roots_node, indices_node, List.flatMap_cons, List.flatMap_append, List.cons_append]
      refine List.Perm.cons j ?_
      have hbelow := (ihc.append_right (sib.families.flatMap Prod.snd)).append_left sib.roots
      have hbeside := ihs.append_left ch.indices
      have hswap : (sib.roots ++ (ch.indices ++ sib.families.flatMap Prod.snd)).Perm
          (ch.indices ++ (sib.roots ++ sib.families.flatMap Prod.snd)) := by
        rw [← List.append_assoc, ← List.append_assoc]
        exact List.perm_append_comm.append_right _
      rw [List.append_assoc] at hbelow
      exact hbelow.trans (hswap.trans hbeside)

/-- In a forest without repetition the children of a node are distinct and other than itself. -/
theorem families_nodup {f : Forest} (h : f.indices.Nodup) : ∀ p ∈ f.families, p.1 ∉ p.2 ∧ p.2.Nodup := by
  induction f with
  | nil => intro p hp; cases hp
  | node i ch sib ihc ihs =>
      rw [indices_node, List.nodup_cons, List.nodup_append] at h
      obtain ⟨hi, hch, hsib, -⟩ := h
      intro p hp
      rcases List.mem_cons.mp hp with rfl | hp
      · refine ⟨fun hmem => hi ?_, hch.sublist (roots_sublist_indices ch)⟩
        exact List.mem_append_left _ (mem_indices_of_mem_roots hmem)
      · rcases List.mem_append.mp hp with hp | hp
        · exact ihc hch p hp
        · exact ihs hsib p hp

/-- A node below a root is no root itself. -/
theorem not_root_of_below {f : Forest} (h : f.indices.Nodup) {t : Nat × Forest} (ht : t ∈ f.trees) {j : Nat}
    (hj : j ∈ t.2.indices) : j ∉ f.roots := by
  induction f with
  | nil => cases ht
  | node i ch sib _ ihs =>
      rw [indices_node, List.nodup_cons, List.nodup_append] at h
      obtain ⟨hi, -, hsib, hdisj⟩ := h
      rw [roots_node, List.mem_cons, not_or]
      rcases List.mem_cons.mp ht with rfl | ht'
      · refine ⟨?_, fun hmem => hdisj j hj j (mem_indices_of_mem_roots hmem) rfl⟩
        rintro rfl
        exact hi (List.mem_append_left _ hj)
      · refine ⟨?_, ihs hsib ht'⟩
        rintro rfl
        refine hi (List.mem_append_right _ ?_)
        rw [← treeIndices_trees]
        exact List.mem_flatMap.mpr ⟨t, ht', List.mem_cons_of_mem _ hj⟩

end Forest

/-- Distinct numbers below `n` are at most `n`. -/
theorem length_le_of_lt {is : List Nat} {n : Nat} (hnd : is.Nodup) (h : ∀ i ∈ is, i < n) : is.length ≤ n := by
  have hsub : is ⊆ List.range n := fun i hi => List.mem_range.mpr (h i hi)
  have hle := (List.subperm_of_subset hnd hsub).length_le
  rwa [List.length_range] at hle

/-! ## Links that spell a forest -/

section Links

variable {N : Type*} (first next : N → Option Nat) (nodes : List N)

/-- Following `next` from `l` meets the nodes `cs` and then ends. -/
def Chain : Option Nat → List Nat → Prop
  | l, [] => l = none
  | l, c :: cs => l = some c ∧ ∃ n, nodes[c]? = some n ∧ Chain (next n) cs

/-- The links from `l` on spell the forest. -/
def Linked : Option Nat → Forest → Prop
  | l, .nil => l = none
  | l, .node i ch sib => l = some i ∧ ∃ n, nodes[i]? = some n ∧ Linked (first n) ch ∧ Linked (next n) sib

/-- The links below node `i` spell the forest. -/
def Subtree (i : Nat) (ch : Forest) : Prop := ∃ n, nodes[i]? = some n ∧ Linked first next nodes (first n) ch

/-- Collect a chain, up to `fuel` nodes of it. -/
def chainList : Nat → Option Nat → List Nat
  | 0, _ => []
  | _, none => []
  | fuel + 1, some c => c :: chainList fuel ((nodes[c]?).bind next)

variable {first next nodes}

theorem Chain.lt {cs : List Nat} {l : Option Nat} (h : Chain next nodes l cs) : ∀ c ∈ cs, c < nodes.length := by
  induction cs generalizing l with
  | nil => intro c hc; cases hc
  | cons d cs ih =>
      obtain ⟨-, n, hn, hcs⟩ := h
      intro c hc
      rcases List.mem_cons.mp hc with rfl | hc
      · exact (List.getElem?_eq_some_iff.mp hn).1
      · exact ih hcs c hc

theorem Chain.unique {cs ds : List Nat} {l : Option Nat} (hc : Chain next nodes l cs)
    (hd : Chain next nodes l ds) : cs = ds := by
  induction cs generalizing l ds with
  | nil =>
      cases ds with
      | nil => rfl
      | cons d ds =>
          cases hc
          exact absurd hd.1 (by simp)
  | cons c cs ih =>
      cases ds with
      | nil =>
          cases hd
          exact absurd hc.1 (by simp)
      | cons d ds =>
          obtain ⟨rfl, n, hn, hcs⟩ := hc
          obtain ⟨hcd, m, hm, hds⟩ := hd
          obtain rfl : c = d := Option.some.inj hcd
          obtain rfl : n = m := Option.some.inj (hn.symm.trans hm)
          rw [ih hcs hds]

theorem Chain.chainList_eq {cs : List Nat} {l : Option Nat} (h : Chain next nodes l cs) {fuel : Nat}
    (hf : cs.length ≤ fuel) : chainList next nodes fuel l = cs := by
  induction cs generalizing l fuel with
  | nil =>
      cases h
      cases fuel <;> rfl
  | cons c cs ih =>
      obtain ⟨rfl, n, hn, hcs⟩ := h
      cases fuel with
      | zero => exact absurd hf (by simp)
      | succ fuel =>
          rw [chainList, hn, Option.bind_some, ih hcs (Nat.le_of_succ_le_succ hf)]

/-- A chain of distinct nodes is not longer than the store. -/
theorem Chain.length_le {cs : List Nat} {l : Option Nat} (h : Chain next nodes l cs) (hnd : cs.Nodup) :
    cs.length ≤ nodes.length :=
  length_le_of_lt hnd h.lt

theorem Linked.chain {f : Forest} {l : Option Nat} (h : Linked first next nodes l f) :
    Chain next nodes l f.roots := by
  induction f generalizing l with
  | nil => exact h
  | node i ch sib _ ih =>
      obtain ⟨hl, n, hn, -, hsib⟩ := h
      exact ⟨hl, n, hn, ih hsib⟩

theorem Linked.lt {f : Forest} {l : Option Nat} (h : Linked first next nodes l f) :
    ∀ i ∈ f.indices, i < nodes.length := by
  induction f generalizing l with
  | nil => intro i hi; cases hi
  | node j ch sib ihc ihs =>
      obtain ⟨-, n, hn, hch, hsib⟩ := h
      intro i hi
      rcases List.mem_cons.mp hi with rfl | hi
      · exact (List.getElem?_eq_some_iff.mp hn).1
      · rcases List.mem_append.mp hi with hi | hi
        · exact ihc hch i hi
        · exact ihs hsib i hi

theorem Linked.subtree {f : Forest} {l : Option Nat} (h : Linked first next nodes l f) :
    ∀ t ∈ f.trees, Subtree first next nodes t.1 t.2 := by
  induction f generalizing l with
  | nil => intro t ht; cases ht
  | node j ch sib _ ihs =>
      obtain ⟨-, n, hn, hch, hsib⟩ := h
      intro t ht
      rcases List.mem_cons.mp ht with rfl | ht
      · exact ⟨n, hn, hch⟩
      · exact ihs hsib t ht

/-- A chain whose nodes all have trees below them is a forest. -/
theorem Chain.linked {ts : List (Nat × Forest)} {l : Option Nat} (h : Chain next nodes l (ts.map Prod.fst))
    (hts : ∀ t ∈ ts, Subtree first next nodes t.1 t.2) : Linked first next nodes l (Forest.ofTrees ts) := by
  induction ts generalizing l with
  | nil => exact h
  | cons t ts ih =>
      obtain ⟨hl, n, hn, hrest⟩ := h
      obtain ⟨m, hm, hch⟩ := hts t List.mem_cons_self
      obtain rfl : m = n := Option.some.inj (hm.symm.trans hn)
      exact ⟨hl, m, hm, hch, ih hrest fun u hu => hts u (List.mem_cons_of_mem _ hu)⟩

/-- In the families of a linked forest every node has its own chain of children. -/
theorem Linked.families {f : Forest} {l : Option Nat} (h : Linked first next nodes l f) :
    ∀ p ∈ f.families, ∃ n, nodes[p.1]? = some n ∧ Chain next nodes (first n) p.2 := by
  induction f generalizing l with
  | nil => intro p hp; cases hp
  | node j ch sib ihc ihs =>
      obtain ⟨-, n, hn, hch, hsib⟩ := h
      intro p hp
      rcases List.mem_cons.mp hp with rfl | hp
      · exact ⟨n, hn, hch.chain⟩
      · rcases List.mem_append.mp hp with hp | hp
        · exact ihc hch p hp
        · exact ihs hsib p hp

/-- Following `next` from `l` meets the nodes `cs` and then the link `m`. -/
def Segment (next : N → Option Nat) (nodes : List N) : Option Nat → List Nat → Option Nat → Prop
  | l, [], m => l = m
  | l, c :: cs, m => l = some c ∧ ∃ n, nodes[c]? = some n ∧ Segment next nodes (next n) cs m

theorem segment_none {l : Option Nat} {cs : List Nat} : Segment next nodes l cs none ↔ Chain next nodes l cs := by
  induction cs generalizing l with
  | nil => exact Iff.rfl
  | cons c cs ih =>
      constructor
      · rintro ⟨hl, n, hn, hcs⟩
        exact ⟨hl, n, hn, ih.mp hcs⟩
      · rintro ⟨hl, n, hn, hcs⟩
        exact ⟨hl, n, hn, ih.mpr hcs⟩

theorem Segment.snoc {l m : Option Nat} {cs : List Nat} {d : Nat} {n : N} (h : Segment next nodes l cs (some d))
    (hn : nodes[d]? = some n) (hm : next n = m) : Segment next nodes l (cs ++ [d]) m := by
  induction cs generalizing l with
  | nil => exact ⟨h, n, hn, hm⟩
  | cons c cs ih =>
      obtain ⟨hl, n', hn', hcs⟩ := h
      exact ⟨hl, n', hn', ih hcs⟩

/-- A segment depends on the nodes in it only. -/
theorem Segment.frame {nodes' : List N} {l m : Option Nat} {cs : List Nat} (h : Segment next nodes l cs m)
    (hsame : ∀ c ∈ cs, nodes'[c]? = nodes[c]?) : Segment next nodes' l cs m := by
  induction cs generalizing l with
  | nil => exact h
  | cons c cs ih =>
      obtain ⟨hl, n, hn, hcs⟩ := h
      refine ⟨hl, n, ?_, ih hcs fun d hd => hsame d (List.mem_cons_of_mem _ hd)⟩
      rw [hsame c List.mem_cons_self, hn]

theorem Segment.append {l m k : Option Nat} {cs ds : List Nat} (h : Segment next nodes l cs m)
    (h' : Segment next nodes m ds k) : Segment next nodes l (cs ++ ds) k := by
  induction cs generalizing l with
  | nil =>
      obtain rfl : l = m := h
      exact h'
  | cons c cs ih =>
      obtain ⟨hl, n, hn, hcs⟩ := h
      exact ⟨hl, n, hn, ih hcs⟩

/-- A segment in two parts; the second starts at its first node. -/
theorem Segment.split {l m : Option Nat} {cs ds : List Nat} (h : Segment next nodes l (cs ++ ds) m) :
    ∃ k, Segment next nodes l cs k ∧ Segment next nodes k ds m := by
  induction cs generalizing l with
  | nil => exact ⟨l, rfl, h⟩
  | cons c cs ih =>
      obtain ⟨hl, n, hn, hcs⟩ := h
      obtain ⟨k, hk, hds⟩ := ih hcs
      exact ⟨k, ⟨hl, n, hn, hk⟩, hds⟩

/-- The links depend on the nodes of the forest only. -/
theorem Linked.frame {nodes' : List N} {l : Option Nat} {f : Forest} (h : Linked first next nodes l f)
    (hsame : ∀ i ∈ f.indices, nodes'[i]? = nodes[i]?) : Linked first next nodes' l f := by
  induction f generalizing l with
  | nil => exact h
  | node i ch sib ihc ihs =>
      obtain ⟨hl, n, hn, hch, hsib⟩ := h
      refine ⟨hl, n, ?_, ?_, ?_⟩
      · rw [hsame i List.mem_cons_self, hn]
      · exact ihc hch fun j hj => hsame j (List.mem_cons_of_mem _ (List.mem_append_left _ hj))
      · exact ihs hsib fun j hj => hsame j (List.mem_cons_of_mem _ (List.mem_append_right _ hj))

end Links

end Vnt.Lib
