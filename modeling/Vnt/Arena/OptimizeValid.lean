import Vnt.Arena.Exact
import Vnt.Arena.PropagateValid
import Vnt.Arena.SimplifyValid
import Vnt.Compile.Accepted

/-!
# `Arena.OptimizeValid` — trees built behind one another

`reserve_node` appends a node and `add_child` links it behind the last child of its parent. `Growing` is the state in
between: the parent with the children it has so far, at the end of the array.
-/

namespace Vnt.Arena

open Lib

variable {nodes nodes' : List VntIrNode}

/-! ## Trees of a chain -/

theorem Tree.frame {index : Nat} {n : VntIrNode} {ch : Forest} (h : Tree nodes index n ch)
    (hsame : ∀ j ∈ index :: ch.indices, nodes'[j]? = nodes[j]?) : Tree nodes' index n ch := by
  have hbelow : ∀ j ∈ ch.indices, nodes'[j]? = nodes[j]? := fun j hj => hsame j (List.mem_cons_of_mem _ hj)
  refine ⟨?_, h.linked.frame hbelow, ?_, h.fits.frame hbelow, h.nodup⟩
  · rw [hsame index List.mem_cons_self, h.at_index]
  · exact h.nodeFits.congr (rolesOf_congr fun c hc => hbelow c (Forest.mem_indices_of_mem_roots hc))

theorem Grove.trees {l : Option Nat} {f : Forest} (h : Grove nodes l f) : ∀ t ∈ f.trees, ∃ n, Tree nodes t.1 n t.2 := by
  induction f generalizing l with
  | nil => intro t ht; cases ht
  | node i ch sib _ ih =>
      obtain ⟨-, n, htree, hrest⟩ := h.cons
      intro t ht
      rcases List.mem_cons.mp ht with rfl | ht
      · exact ⟨n, htree⟩
      · exact ih hrest t ht

theorem grove_ofTrees {l : Option Nat} {ts : List (Nat × Forest)} (hchain : Chain nodes l (ts.map Prod.fst))
    (hts : ∀ t ∈ ts, ∃ n, Tree nodes t.1 n t.2) (hnd : (Forest.treeIndices ts).Nodup) :
    Grove nodes l (.ofTrees ts) := by
  refine ⟨hchain.linked fun t ht => ?_, fits_ofTrees.mpr fun t ht => ?_, ?_⟩
  · obtain ⟨n, htree⟩ := hts t ht
    exact ⟨n, htree.at_index, htree.linked⟩
  · obtain ⟨n, htree⟩ := hts t ht
    exact ⟨⟨n, htree.at_index, htree.nodeFits⟩, htree.fits⟩
  · rwa [Forest.indices_ofTrees]

/-- A tree whose root gets another next sibling. -/
theorem Tree.relink {cs : List Nat} {index : Nat} {n : VntIrNode} {ch : Forest} (h : Tree nodes index n ch)
    (hre : Relinked cs nodes nodes') (hcs : ∀ j ∈ ch.indices, j ∉ cs) : ∃ n', Tree nodes' index n' ch := by
  have hbelow : ∀ j ∈ ch.indices, nodes'[j]? = nodes[j]? := fun j hj => hre.frame j (hcs j hj)
  obtain ⟨n', hn', next, role, rfl⟩ := hre.node index n h.at_index
  refine ⟨_, hn', h.linked.frame hbelow, ?_, h.fits.frame hbelow, h.nodup⟩
  obtain ⟨op, hop, hpay, hshape⟩ := h.nodeFits.opcode
  rw [← rolesOf_congr fun c hc => hbelow c (Forest.mem_indices_of_mem_roots hc)] at hshape
  exact ⟨h.nodeFits.childCount, h.nodeFits.lastChild, op, hop,
    ⟨hpay.text, hpay.names, hpay.typeName, hpay.binary, hpay.unary⟩, hshape⟩

/-! ## Growing trees -/

/-- Node `k` has the children `h` so far; they fill the array behind it. -/
structure Growing (nodes : List VntIrNode) (k : Nat) (p : VntIrNode) (h : Forest) : Prop where
  at_k : nodes[k]? = some p
  grove : Grove nodes p.firstChild h
  childCount : p.childCount = h.roots.length
  lastChild : p.lastChild = h.roots.getLast?
  behind : ∀ j ∈ h.indices, k < j
  length : nodes.length = k + 1 + h.indices.length

/-- The parent after one more child. -/
def VntIrNode.adding (p : VntIrNode) (first : Option Nat) (child : Nat) : VntIrNode :=
  { p with firstChild := first.or (some child), lastChild := some child, childCount := p.childCount + 1 }

/-- A new child at the end: a tree that starts where the array ended. -/
structure Fresh (nodes nodes' : List VntIrNode) (m : VntIrNode) (sub : Forest) : Prop where
  tree : Tree nodes' nodes.length m sub
  single : m.nextSibling = none
  before : ∀ j < nodes.length, nodes'[j]? = nodes[j]?
  behind : ∀ j ∈ sub.indices, nodes.length < j
  length : nodes'.length = nodes.length + 1 + sub.indices.length

/-- The two writes of `add_child`: the link from the last child, and the parent. -/
theorem addChild_links {k c : Nat} {p m : VntIrNode} {ks : List Nat} (hk : nodes[k]? = some p)
    (hlast : p.lastChild = ks.getLast?) (hchain : Chain nodes p.firstChild ks) (hks : ks.Nodup) (hkk : k ∉ ks)
    (hc : nodes[c]? = some m) (hm : m.nextSibling = none) (hcks : c ∉ ks) :
    ∃ mid, addChild nodes k c = .ok (some (mid.set k (p.adding p.firstChild c))) ∧ Relinked ks nodes mid ∧
      Chain mid (p.firstChild.or (some c)) (ks ++ [c]) ∧
      ∀ j : Nat, (mid[j]?).bind VntIrNode.role = (nodes[j]?).bind VntIrNode.role := by
  have hklt := (List.getElem?_eq_some_iff.mp hk).1
  have hclt := (List.getElem?_eq_some_iff.mp hc).1
  unfold addChild
  rw [if_neg (by omega)]
  simp only [access_eq_ok.mpr hk, hlast, bind, Except.bind, pure, Except.pure]
  cases hd : ks.getLast? with
  | none =>
      obtain rfl : ks = [] := List.getLast?_eq_none_iff.mp hd
      have hfirst : p.firstChild = none := hchain
      refine ⟨nodes, ?_, Relinked.refl _ _, ?_, fun _ => rfl⟩
      · simp only [access_eq_ok.mpr (getElem?_set_self' hk), List.set_set, VntIrNode.adding, hfirst]
        rfl
      · rw [hfirst]
        exact ⟨rfl, m, hc, hm⟩
  | some d =>
      have hsplit := dropLast_append_last hd
      have hdks : d ∈ ks := by
        rw [← hsplit]
        simp
      have hdrop : d ∉ ks.dropLast := by
        rw [← hsplit, List.nodup_append] at hks
        exact fun hmem => hks.2.2 d hmem d (by simp) rfl
      obtain ⟨n, hn⟩ : ∃ n, nodes[d]? = some n := ⟨_, List.getElem?_eq_getElem (hchain.lt d hdks)⟩
      have hne : ks ≠ [] := List.ne_nil_of_mem hdks
      have hseg := (Segment.to_last (segment_none.mpr hchain)).resolve_left hne
      rw [hd] at hseg
      have hseg' := Segment.relink (some c) hseg hn hdrop
      rw [hsplit] at hseg'
      have hcd : d ≠ c := by
        rintro rfl
        exact hcks hdks
      have hkd : d ≠ k := by
        rintro rfl
        exact hkk hdks
      obtain ⟨a, hfirst⟩ : ∃ a, p.firstChild = some a := by
        rw [Segment.head (segment_none.mpr hchain) hne]
        cases ks with
        | nil => exact absurd rfl hne
        | cons a ks => exact ⟨a, rfl⟩
      refine ⟨nodes.set d { n with nextSibling := some c }, ?_, Relinked.set hdks hn (some c) n.role, ?_, ?_⟩
      · simp only [access_eq_ok.mpr hn]
        rw [access_eq_ok.mpr ((getElem?_set_ne' hkd).trans hk)]
        simp only [VntIrNode.adding, hfirst, Option.some_or]
      · rw [hfirst, Option.some_or, ← hfirst]
        refine segment_none.mp (hseg'.append ⟨rfl, m, ?_, hm⟩)
        rw [getElem?_set_ne' hcd, hc]
      · intro j
        by_cases hdj : d = j
        · subst hdj
          rw [getElem?_set_self' hn, hn]
          rfl
        · rw [getElem?_set_ne' hdj]

/-- `add_child` of a fresh tree. -/
theorem addChild_growing {k : Nat} {p m : VntIrNode} {h sub : Forest} (hp : Growing nodes k p h)
    (hm : Fresh nodes nodes' m sub) :
    ∃ added h', addChild nodes' k nodes.length = .ok (some added) ∧
      Growing added k (p.adding p.firstChild nodes.length) h' ∧ (∀ j < k, added[j]? = nodes[j]?) ∧
      h'.indices.length = h.indices.length + 1 + sub.indices.length ∧
      rolesOf added h'.roots = rolesOf nodes h.roots ++ [m.role] := by
  have hk : k < nodes.length := (List.getElem?_eq_some_iff.mp hp.at_k).1
  have hlow : ∀ j ∈ h.indices, j < nodes.length := hp.grove.linked.lt
  have hold : ∀ j ∈ h.indices, nodes'[j]? = nodes[j]? := fun j hj => hm.before j (hlow j hj)
  have hroots : h.roots.Nodup := hp.grove.nodup.sublist (Forest.roots_sublist_indices h)
  have hrootlt : ∀ j ∈ h.roots, k < j ∧ j < nodes.length :=
    fun j hj => ⟨hp.behind j (Forest.mem_indices_of_mem_roots hj), hlow j (Forest.mem_indices_of_mem_roots hj)⟩
  obtain ⟨mid, hrun, hre, hchain, hroles⟩ := addChild_links ((hm.before k hk).trans hp.at_k) hp.lastChild
    (hp.grove.linked.frame hold).chain hroots (fun hmem => absurd (hrootlt k hmem).1 (Nat.lt_irrefl k))
    hm.tree.at_index hm.single (fun hmem => absurd (hrootlt _ hmem).2 (Nat.lt_irrefl _))
  have hmid : mid[k]? = some p := by
    rw [hre.frame k fun hmem => absurd (hrootlt k hmem).1 (Nat.lt_irrefl k), hm.before k hk, hp.at_k]
  -- The trees below the parent: the old ones, and the fresh one.
  have hbehind : ∀ t ∈ h.trees ++ [(nodes.length, sub)], ∀ j ∈ t.1 :: t.2.indices, k < j := by
    intro t ht j hj
    rcases List.mem_append.mp ht with ht | ht
    · refine hp.behind j ?_
      rw [← Forest.treeIndices_trees]
      exact List.mem_flatMap.mpr ⟨t, ht, hj⟩
    · rw [List.mem_singleton.mp ht] at hj
      rcases List.mem_cons.mp hj with rfl | hj
      · exact hk
      · exact hk.trans (hm.behind j hj)
  have htrees : ∀ t ∈ h.trees ++ [(nodes.length, sub)],
      ∃ n, Tree (mid.set k (p.adding p.firstChild nodes.length)) t.1 n t.2 := by
    intro t ht
    have hin : ∃ n, Tree mid t.1 n t.2 := by
      rcases List.mem_append.mp ht with ht | ht
      · obtain ⟨n, htree⟩ := hp.grove.trees t ht
        refine (htree.frame fun j hj => hold j ?_).relink hre fun j hj => ?_
        · rw [← Forest.treeIndices_trees]
          exact List.mem_flatMap.mpr ⟨t, ht, hj⟩
        · exact Forest.not_root_of_below hp.grove.nodup ht hj
      · rw [List.mem_singleton.mp ht]
        refine hm.tree.relink hre fun j hj hmem => ?_
        exact absurd (hrootlt j hmem).2 (Nat.not_lt.mpr (Nat.le_of_lt (hm.behind j hj)))
    obtain ⟨n, htree⟩ := hin
    refine ⟨n, htree.frame fun j hj => getElem?_set_ne' ?_⟩
    exact Nat.ne_of_lt (hbehind t ht j hj)
  have hfst : (h.trees ++ [(nodes.length, sub)]).map Prod.fst = h.roots ++ [nodes.length] := by
    rw [List.map_append, Forest.map_fst_trees]
    rfl
  have hindices : Forest.treeIndices (h.trees ++ [(nodes.length, sub)]) = h.indices ++ nodes.length :: sub.indices := by
    rw [Forest.treeIndices_append, Forest.treeIndices_trees]
    simp [Forest.treeIndices]
  have hnd : (Forest.treeIndices (h.trees ++ [(nodes.length, sub)])).Nodup := by
    rw [hindices, List.nodup_append]
    refine ⟨hp.grove.nodup, hm.tree.nodup, ?_⟩
    rintro a ha b hb rfl
    rcases List.mem_cons.mp hb with rfl | hb
    · exact absurd (hlow _ ha) (Nat.lt_irrefl _)
    · exact absurd (hlow a ha) (Nat.not_lt.mpr (Nat.le_of_lt (hm.behind a hb)))
  have hchain' : Chain (mid.set k (p.adding p.firstChild nodes.length)) (p.firstChild.or (some nodes.length))
      ((h.trees ++ [(nodes.length, sub)]).map Prod.fst) := by
    rw [hfst]
    refine segment_none.mp ((segment_none.mpr hchain).frame fun j hj => getElem?_set_ne' ?_)
    rcases List.mem_append.mp hj with hj | hj
    · exact Nat.ne_of_lt (hrootlt j hj).1
    · rw [List.mem_singleton.mp hj]
      exact Nat.ne_of_lt hk
  have hroots' : (Forest.ofTrees (h.trees ++ [(nodes.length, sub)])).roots = h.roots ++ [nodes.length] := by
    rw [Forest.roots_ofTrees, hfst]
  refine ⟨mid.set k (p.adding p.firstChild nodes.length), .ofTrees (h.trees ++ [(nodes.length, sub)]), hrun,
    ⟨getElem?_set_self' hmid, grove_ofTrees hchain' htrees hnd, ?_, ?_, ?_, ?_⟩, ?_, ?_, ?_⟩
  · rw [hroots', List.length_append, ← hp.childCount]
    rfl
  · rw [hroots']
    simp [VntIrNode.adding]
  · intro j hj
    rw [Forest.indices_ofTrees] at hj
    obtain ⟨t, ht, hj⟩ := List.mem_flatMap.mp hj
    exact hbehind t ht j hj
  · have hlen := hp.length
    rw [List.length_set, hre.length, hm.length, Forest.indices_ofTrees, hindices, List.length_append,
      List.length_cons]
    omega
  · intro j hj
    rw [getElem?_set_ne' (Nat.ne_of_gt hj), hre.frame j fun hmem => absurd (hrootlt j hmem).1 (by omega),
      hm.before j (by omega)]
  · rw [Forest.indices_ofTrees, hindices, List.length_append, List.length_cons]
    omega
  · rw [hroots', rolesOf_set, rolesOf, List.map_append, List.map_singleton]
    · congr 1
      · refine List.map_congr_left fun c hc => ?_
        rw [hroles c, hold c (Forest.mem_indices_of_mem_roots hc)]
      · rw [hroles, hm.tree.at_index]
        rfl
    · rw [List.mem_append, not_or, List.mem_singleton]
      exact ⟨fun hmem => absurd (hrootlt k hmem).1 (Nat.lt_irrefl k), Nat.ne_of_lt hk⟩

/-!
## `hir_copy_node` copies a tree

The copy of a node and of everything below it stands behind the array so far, without gaps, so what was left behind
by folding and pruning is gone and the copy has exactly the nodes of the tree.
-/

theorem PayloadFits.copied {src : VntIrNode} {op : VntIrOpcode} (hop : src.opcode = some op) (h : PayloadFits src op) :
    PayloadFits (copiedNode src) op := by
  refine ⟨fun htext => ?_, fun hcount => ?_, fun ht => h.typeName ?_, h.binary, h.unary⟩
  · refine ⟨src.value.text?.getD "", ?_⟩
    simp only [copiedNode, hop]
    rw [if_pos htext]
    rfl
  · obtain ⟨hwhere, names, hnames, hall⟩ := h.names hcount
    refine ⟨hwhere, (names.take src.nameCount).map copyText, ?_, fun j hj => ?_⟩
    · simp only [copiedNode]
      rw [if_neg (show src.nameCount ≠ 0 from hcount), hnames]
      rfl
    · have hj' : j < src.nameCount := hj
      obtain ⟨s, hs⟩ := hall j hj
      refine ⟨s, ?_⟩
      rw [List.getElem?_map, List.getElem?_take, if_pos hj', hs]
      rfl
  · intro hnone
    refine ht ?_
    simp only [copiedNode, hnone]
    rfl

/-- What the copy of one node gives: a fresh tree of the same size, whose root has the role of the original. -/
def CopiesNode (fuel : Nat) (old : List VntIrNode) (index : Nat) (n : VntIrNode) (size : Nat) : Prop :=
  ∀ out : List VntIrNode, ∃ out' m sub, hirCopyNode fuel old out index = .ok (some (out', out.length)) ∧
    Fresh out out' m sub ∧ m.role = n.role ∧ m.opcode = n.opcode ∧ sub.indices.length = size

/-- A parent keeps its own fields while its children are copied. -/
def SameHead (p p' : VntIrNode) : Prop :=
  p' = { p with firstChild := p'.firstChild, lastChild := p'.lastChild, childCount := p'.childCount }

theorem SameHead.trans {p q r : VntIrNode} (h : SameHead p q) (h' : SameHead q r) : SameHead p r := by
  unfold SameHead at h h' ⊢
  rw [h', h]

/-- What the loop over a chain of children gives to a growing parent. -/
def CopiesChildren (fuel : Nat) (old : List VntIrNode) (l : Option Nat) (g : Forest) : Prop :=
  ∀ (out : List VntIrNode) (k : Nat) (p : VntIrNode) (h : Forest), Growing out k p h →
    ∃ out' p' h', copyChildren fuel old out k l = .ok (some out') ∧ Growing out' k p' h' ∧ SameHead p p' ∧
      (∀ j < k, out'[j]? = out[j]?) ∧ h'.indices.length = h.indices.length + g.indices.length ∧
      rolesOf out' h'.roots = rolesOf out h.roots ++ rolesOf old g.roots

/-- One node, given what the loop does with its children. -/
theorem copiesNode_of_children {old : List VntIrNode} {fuel index : Nat} {n : VntIrNode} {ch : Forest}
    (h : Tree old index n ch) (hch : CopiesChildren fuel old n.firstChild ch) :
    CopiesNode (fuel + 1) old index n ch.indices.length := by
  intro out
  have hset : (out ++ [zeroNode]).set out.length (copiedNode n) = out ++ [copiedNode n] := by simp
  have hstart : Growing (out ++ [copiedNode n]) out.length (copiedNode n) .nil :=
    ⟨by simp, ⟨rfl, fits_nil, List.nodup_nil⟩, rfl, rfl, fun j hj => (by cases hj), by simp⟩
  obtain ⟨out', p, sub, hrun, hgrow, hhead, hbefore, hsize, hroles⟩ := hch _ _ _ _ hstart
  have hsize' : sub.indices.length = ch.indices.length := by simpa using hsize
  have hroles' : rolesOf out' sub.roots = rolesOf old ch.roots := by simpa [rolesOf] using hroles
  refine ⟨out', p, sub, ?_, ⟨⟨hgrow.at_k, hgrow.grove.linked, ?_, hgrow.grove.fits, ?_⟩, ?_, ?_, ?_, ?_⟩, ?_, ?_, hsize'⟩
  · simp only [hirCopyNode, h.at_index, reserveNode, hset, hrun, bind, Except.bind, pure, Except.pure]
  · obtain ⟨op, hop, hpay, hshape⟩ := h.nodeFits.opcode
    have hpay' := hpay.copied hop
    refine ⟨hgrow.childCount, hgrow.lastChild, op, ?_, ?_, ?_⟩
    · rw [hhead]
      exact hop
    · rw [hhead]
      exact ⟨hpay'.text, hpay'.names, hpay'.typeName, hpay'.binary, hpay'.unary⟩
    · rw [hroles']
      exact hshape
  · rw [List.nodup_cons]
    exact ⟨fun hmem => absurd (hgrow.behind _ hmem) (Nat.lt_irrefl _), hgrow.grove.nodup⟩
  · rw [hhead]
    rfl
  · intro j hj
    rw [hbefore j hj, List.getElem?_append_left hj]
  · exact hgrow.behind
  · exact hgrow.length
  · rw [hhead]
    rfl
  · rw [hhead]
    rfl

theorem copiesChildren {old : List VntIrNode} (g : Forest) : ∀ (fuel : Nat) (l : Option Nat), Grove old l g →
    2 * g.indices.length ≤ fuel → CopiesChildren fuel old l g := by
  induction g with
  | nil =>
      intro fuel l hg _ out k p h hgrow
      obtain rfl : l = none := hg.linked
      exact ⟨out, p, h, by cases fuel <;> rfl, hgrow, rfl, fun _ _ => rfl, rfl, by simp [rolesOf]⟩
  | node i ch sib ihc ihs =>
      intro fuel l hg hf out k p h hgrow
      obtain ⟨rfl, n, htree, hrest⟩ := hg.cons
      rw [Forest.indices_node, List.length_cons, List.length_append] at hf ⊢
      obtain ⟨fuel, rfl⟩ : ∃ k, fuel = k + 2 := ⟨fuel - 2, by omega⟩
      obtain ⟨out₁, m, sub, hrun₁, hfresh, hrole, -, hsub⟩ :=
        copiesNode_of_children htree (ihc fuel n.firstChild htree.grove (by omega)) out
      obtain ⟨out₂, h₂, hrun₂, hgrow₂, hbefore₂, hsize₂, hroles₂⟩ := addChild_growing hgrow hfresh
      obtain ⟨out₃, p₃, h₃, hrun₃, hgrow₃, hhead₃, hbefore₃, hsize₃, hroles₃⟩ :=
        ihs (fuel + 1) n.nextSibling hrest (by omega) out₂ k _ h₂ hgrow₂
      refine ⟨out₃, p₃, h₃, ?_, hgrow₃, SameHead.trans (q := p.adding p.firstChild out.length) rfl hhead₃, ?_, ?_, ?_⟩
      · simp only [copyChildren, hrun₁, hrun₂, access_eq_ok.mpr htree.at_index, hrun₃, bind, Except.bind]
      · intro j hj
        rw [hbefore₃ j hj, hbefore₂ j hj]
      · omega
      · rw [hroles₃, hroles₂, hrole, List.append_assoc]
        simp only [rolesOf, Forest.roots_node, List.map_cons, htree.at_index, Option.bind_some, List.singleton_append]

/-- The copy of a whole tree into an empty array is well-formed. -/
theorem hirCopyNode_wellFormed {old : List VntIrNode} {fuel root : Nat} {n : VntIrNode} {ch : Forest}
    (h : Tree old root n ch) (hf : 2 * ch.indices.length < fuel) (hop : n.opcode = some .program)
    (hrole : n.role = some .root) :
    ∃ nodes, hirCopyNode fuel old [] root = .ok (some (nodes, 0)) ∧ WellFormed ⟨nodes, 0⟩ ∧
      nodes.length = 1 + ch.indices.length := by
  obtain ⟨fuel, rfl⟩ : ∃ k, fuel = k + 1 := ⟨fuel - 1, by omega⟩
  obtain ⟨nodes, m, sub, hrun, hfresh, hmrole, hmop, hsize⟩ :=
    copiesNode_of_children h (copiesChildren ch fuel n.firstChild h.grove (by omega)) []
  have hlinked : Linked nodes (some 0) (.node 0 sub .nil) :=
    ⟨rfl, m, hfresh.tree.at_index, hfresh.tree.linked, hfresh.single⟩
  have hlen : nodes.length = 1 + sub.indices.length := by
    have := hfresh.length
    simp only [List.length_nil] at this
    omega
  have hindices : (Forest.node 0 sub .nil).indices = 0 :: sub.indices := by simp
  refine ⟨nodes, hrun, ⟨sub, hlinked, ?_, ⟨m, hfresh.tree.at_index, hmop.trans hop, hmrole.trans hrole⟩, ?_⟩, ?_⟩
  · have hsubset : (Forest.node 0 sub .nil).indices ⊆ List.range nodes.length :=
      fun j hj => List.mem_range.mpr (hlinked.lt j hj)
    have hnd : (Forest.node 0 sub .nil).indices.Nodup := by
      rw [hindices]
      exact hfresh.tree.nodup
    refine (List.subperm_of_subset hnd hsubset).perm_of_length_le ?_
    rw [List.length_range, hindices, List.length_cons]
    omega
  · exact fits_node.mpr ⟨⟨m, hfresh.tree.at_index, hfresh.tree.nodeFits⟩, hfresh.tree.fits, fits_nil⟩
  · rw [hlen, hsize]

/-!
## The optimizer keeps the HIR well-formed

A round of the optimizer leaves one tree under the old root, made of nodes it had before; compaction copies that tree
into an array of its own. So the last `vnt_ir_validate` accepts, and nothing in between can fail.
-/

/-- The program is one tree under a `PROGRAM` root, in an array that may hold other nodes as well. -/
structure Rooted (ir : VntIrProgram) (n : VntIrNode) (ch : Forest) : Prop where
  tree : Tree ir.nodes ir.root n ch
  opcode : n.opcode = some .program
  role : n.role = some .root

theorem WellFormed.rooted {ir : VntIrProgram} (h : WellFormed ir) :
    ∃ n ch, Rooted ir n ch ∧ ir.nodes.length = 1 + ch.indices.length := by
  obtain ⟨ch, ⟨-, n, hn, hch, -⟩, hperm, ⟨m, hm, hop, hrole⟩, hfits⟩ := h
  obtain rfl : n = m := Option.some.inj (hn.symm.trans hm)
  obtain ⟨⟨m, hm', hfit⟩, hfc, -⟩ := fits_node.mp hfits
  obtain rfl : n = m := Option.some.inj (hn.symm.trans hm')
  have hindices : (Forest.node ir.root ch .nil).indices = ir.root :: ch.indices := by simp
  rw [hindices] at hperm
  refine ⟨n, ch, ⟨⟨hn, hch, hfit, hfc, hperm.nodup_iff.mpr List.nodup_range⟩, hop, hrole⟩, ?_⟩
  have hlen := hperm.length_eq
  rw [List.length_range, List.length_cons] at hlen
  omega

theorem Rooted.reworked {ir : VntIrProgram} {nodes' : List VntIrNode} {n : VntIrNode} {ch ch' : Forest}
    (h : Rooted ir n ch) (h' : NodeReworked NodeFits ir.nodes nodes' ir.root ch ch') :
    ∃ n', Rooted { ir with nodes := nodes' } n' ch' := by
  obtain ⟨n', ht, hrole, hop⟩ := h.tree.reworked h'
  exact ⟨n', ht, hop h.opcode, hrole.trans h.role⟩

theorem Rooted.substituted {ir : VntIrProgram} {nodes' : List VntIrNode} {n : VntIrNode} {ch : Forest}
    (h : Rooted ir n ch) (h' : Substituted ir.nodes nodes') : ∃ n', Rooted { ir with nodes := nodes' } n' ch := by
  obtain ⟨n', hn', hstep⟩ := h'.2 ir.root n h.tree.at_index
  rcases hstep with rfl | ⟨hop, -⟩
  · obtain ⟨m, ht, -⟩ := h'.tree h.tree
    obtain rfl : n' = m := Option.some.inj (hn'.symm.trans ht.at_index)
    exact ⟨n', ht, h.opcode, h.role⟩
  · rw [h.opcode] at hop
    cases hop

/-- One round: every pass ends, and the tree has no more nodes than before. -/
theorem optimizeRound_rooted {f : FloatUnit} {ir : VntIrProgram} {fuel : Nat} {n : VntIrNode} {ch : Forest}
    (h : Rooted ir n ch) (hf : 3 * ch.indices.length + 1 ≤ fuel) :
    ∃ ir' changed n' ch', optimizeRound f fuel ir = .ok (ir', changed) ∧ Rooted ir' n' ch' ∧
      ch'.indices.length ≤ ch.indices.length := by
  obtain ⟨nodes₁, changed₁, ch₁, hrun₁, hre₁⟩ : ∃ nodes' changed' ch', hirFoldNode f fuel ir.nodes ir.root 0 =
      .ok (nodes', changed') ∧ NodeReworked NodeFits ir.nodes nodes' ir.root ch ch' :=
    hirFoldNode_reworked 0 h.tree (by omega)
  have hlen₁ := hre₁.kept.length_le
  obtain ⟨n₁, h₁⟩ := h.reworked hre₁
  obtain ⟨s, hrun₂, hsub⟩ := (propagation fuel).sequence ⟨nodes₁, [], changed₁⟩ ir.root n₁ ch₁ h₁.tree (by omega)
  obtain ⟨n₂, h₂⟩ := h₁.substituted hsub
  obtain ⟨nodes₃, changed₃, ch₃, hrun₃, hre₃⟩ : ∃ nodes' changed' ch', hirFoldNode f fuel s.nodes ir.root s.changed =
      .ok (nodes', changed') ∧ NodeReworked NodeFits s.nodes nodes' ir.root ch₁ ch' :=
    hirFoldNode_reworked s.changed h₂.tree (by omega)
  have hlen₃ := hre₃.kept.length_le
  obtain ⟨n₃, h₃⟩ := h₂.reworked hre₃
  obtain ⟨nodes₄, changed₄, ch₄, hrun₄, hre₄⟩ : ∃ nodes' changed' ch',
      hirSimplifyControlFlow fuel nodes₃ ir.root changed₃ = .ok (nodes', changed') ∧
        NodeReworked NodeFits nodes₃ nodes' ir.root ch₃ ch' :=
    hirSimplifyControlFlow_reworked changed₃ h₃.tree (by omega)
  have hlen₄ := hre₄.kept.length_le
  obtain ⟨n₄, h₄⟩ := h₃.reworked hre₄
  refine ⟨⟨nodes₄, ir.root⟩, changed₄, n₄, ch₄, ?_, h₄, by omega⟩
  simp only [optimizeRound, hrun₁, hrun₂, hrun₃, hrun₄, bind, Except.bind, pure, Except.pure]

theorem optimizeRounds_rooted {f : FloatUnit} {fuel : Nat} : ∀ (k : Nat) {ir : VntIrProgram} {n : VntIrNode}
    {ch : Forest}, Rooted ir n ch → 3 * ch.indices.length + 1 ≤ fuel →
      ∃ ir' n' ch', optimizeRounds f fuel k ir = .ok ir' ∧ Rooted ir' n' ch' ∧
        ch'.indices.length ≤ ch.indices.length
  | 0, ir, n, ch, h, _ => ⟨ir, n, ch, rfl, h, Nat.le_refl _⟩
  | k + 1, ir, n, ch, h, hf => by
      obtain ⟨ir₁, changed, n₁, ch₁, hrun₁, h₁, hlen₁⟩ : ∃ ir' changed n' ch', optimizeRound f fuel ir =
          .ok (ir', changed) ∧ Rooted ir' n' ch' ∧ ch'.indices.length ≤ ch.indices.length :=
        optimizeRound_rooted h hf
      simp only [optimizeRounds, hrun₁, bind, Except.bind]
      split
      · exact ⟨ir₁, n₁, ch₁, rfl, h₁, hlen₁⟩
      · obtain ⟨ir₂, n₂, ch₂, hrun₂, h₂, hlen₂⟩ : ∃ ir' n' ch', optimizeRounds f fuel k ir₁ = .ok ir' ∧
            Rooted ir' n' ch' ∧ ch'.indices.length ≤ ch₁.indices.length := optimizeRounds_rooted k h₁ (by omega)
        exact ⟨ir₂, n₂, ch₂, hrun₂, h₂, hlen₂.trans hlen₁⟩

/-- **The optimizer keeps the HIR well-formed and never fails on a valid one.** From every array that
    `vnt_ir_validate` accepts, `vnt_ir_optimize` ends without leaving the array, returns 1, and leaves an array that
    `vnt_ir_validate` accepts again and that has no more nodes. -/
theorem vntIrOptimize_keeps (f : FloatUnit) (ir : VntIrProgram) (fuel : Nat) (hf : 3 * ir.nodes.length < fuel)
    (hvalid : vntIrValidate fuel ir = .ok true) :
    ∃ ir', vntIrOptimize f fuel ir = .ok (true, ir') ∧ vntIrValidate fuel ir' = .ok true ∧
      ir'.nodes.length ≤ ir.nodes.length := by
  obtain ⟨b, hb, hiff⟩ := vntIrValidate_fuel ir fuel (by omega)
  obtain rfl : true = b := Except.ok.inj (hvalid.symm.trans hb)
  obtain ⟨n, ch, hrooted, hlen⟩ := (hiff.mp rfl).rooted
  obtain ⟨ir₁, n₁, ch₁, hrun₁, h₁, hlen₁⟩ : ∃ ir' n' ch', optimizeRounds f fuel 8 ir = .ok ir' ∧ Rooted ir' n' ch' ∧
      ch'.indices.length ≤ ch.indices.length := optimizeRounds_rooted 8 hrooted (by omega)
  obtain ⟨nodes, hrun₂, hwf, hlen₂⟩ : ∃ nodes, hirCopyNode fuel ir₁.nodes [] ir₁.root = .ok (some (nodes, 0)) ∧
      WellFormed ⟨nodes, 0⟩ ∧ nodes.length = 1 + ch₁.indices.length :=
    hirCopyNode_wellFormed h₁.tree (by omega) h₁.opcode h₁.role
  obtain ⟨b', hb', hiff'⟩ := vntIrValidate_fuel ⟨nodes, 0⟩ fuel (by show nodes.length < fuel; omega)
  obtain rfl : b' = true := hiff'.mpr hwf
  refine ⟨⟨nodes, 0⟩, ?_, hb', by show nodes.length ≤ _; omega⟩
  simp only [vntIrOptimize, hvalid, hrun₁, hrun₂, hb', bind, Except.bind, pure, Except.pure, if_true]

/-- `unsafe { if true { return } else { } print(true) }` with the `IF` node's children out of order: a branch first and
    the condition behind it. -/
def constantIf : VntIrProgram where
  nodes := [
    ⟨some .program, some .root, 0, none, 0, none, some 1, some 1, none, 1, .integer 0, null_names⟩,
    ⟨some .program, some .statement, 0, none, 0, none, some 2, some 5, none, 2, .integer 0, null_names⟩,
    ⟨some .if, some .statement, 0, none, 0, none, some 3, some 4, some 5, 2, .integer 0, null_names⟩,
    ⟨some .return, some .then, 0, none, 0, none, none, none, some 4, 0, .integer 0, null_names⟩,
    ⟨some .boolean, some .condition, 0, none, 0, none, none, none, none, 0, .boolean true, null_names⟩,
    ⟨some .print, some .statement, 0, none, 0, none, some 6, some 6, none, 1, .integer 0, null_names⟩,
    ⟨some .boolean, some .value, 0, none, 0, none, none, none, none, 0, .boolean true, null_names⟩]
  root := 0

theorem constantIf_keeps : vntIrValidate 22 constantIf = .ok true ∧
    ∃ ir', vntIrOptimize noFloats 22 constantIf = .ok (true, ir') ∧ vntIrValidate 22 ir' = .ok true ∧
      ir'.nodes.length ≤ 7 := by
  have hvalid : vntIrValidate 22 constantIf = .ok true := by decide +kernel
  exact ⟨hvalid, vntIrOptimize_keeps noFloats constantIf 22 (by decide) hvalid⟩

end Vnt.Arena
