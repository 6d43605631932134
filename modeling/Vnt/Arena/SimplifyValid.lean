import Vnt.Arena.FoldValid
import Mathlib.Data.List.Flatten

/-!
# `Arena.SimplifyValid` — control simplification keeps the tree

`hir_prune_sequence` and the replacement of a constant `IF` relink the children of one node: they write the
`next_sibling` links and the roles of the children and nothing else, and the new chain is a part of the old one. The
trees below the children come along.
-/

namespace Vnt.Arena

open Lib

variable {nodes nodes' nodes'' : List VntIrNode}

/-! ## Relinking children -/

/-- Only next siblings and roles of the nodes `cs` have changed. -/
structure Relinked (cs : List Nat) (nodes nodes' : List VntIrNode) : Prop where
  length : nodes'.length = nodes.length
  frame : ∀ j, j ∉ cs → nodes'[j]? = nodes[j]?
  node : ∀ (j : Nat) (n : VntIrNode), nodes[j]? = some n →
    ∃ n', nodes'[j]? = some n' ∧ ∃ next role, n' = { n with nextSibling := next, role := role }

theorem Relinked.refl (cs : List Nat) (nodes : List VntIrNode) : Relinked cs nodes nodes :=
  ⟨rfl, fun _ _ => rfl, fun _ n hn => ⟨n, hn, n.nextSibling, n.role, rfl⟩⟩

theorem Relinked.trans {cs : List Nat} (h : Relinked cs nodes nodes') (h' : Relinked cs nodes' nodes'') :
    Relinked cs nodes nodes'' := by
  refine ⟨h'.length.trans h.length, fun j hj => (h'.frame j hj).trans (h.frame j hj), fun j n hn => ?_⟩
  obtain ⟨n', hn', next, role, rfl⟩ := h.node j n hn
  obtain ⟨n'', hn'', next', role', rfl⟩ := h'.node j _ hn'
  exact ⟨_, hn'', next', role', rfl⟩

theorem Relinked.set {cs : List Nat} {c : Nat} {n : VntIrNode} (hc : c ∈ cs) (hn : nodes[c]? = some n)
    (next : Option Nat) (role : Option VntIrEdgeRole) :
    Relinked cs nodes (nodes.set c { n with nextSibling := next, role := role }) := by
  refine ⟨List.length_set, fun j hj => ?_, fun j m hm => ?_⟩
  · rw [getElem?_set_ne']
    rintro rfl
    exact hj hc
  · by_cases hcj : c = j
    · subst hcj
      obtain rfl : n = m := Option.some.inj (hn.symm.trans hm)
      exact ⟨_, getElem?_set_self' hn, next, role, rfl⟩
    · exact ⟨m, by rw [getElem?_set_ne' hcj, hm], m.nextSibling, m.role, rfl⟩

/-- Part of the old children, in a chain of their own, are a grove again. -/
theorem Relinked.grove {l l' : Option Nat} {f : Forest} {ks : List Nat} (h : Relinked f.roots nodes nodes')
    (hg : Grove nodes l f) (hks : ks.Sublist f.roots) (hchain : Chain nodes' l' ks) :
    ∃ f', Grove nodes' l' f' ∧ f'.roots = ks ∧ f'.indices.Sublist f.indices := by
  rw [← Forest.map_fst_trees] at hks
  obtain ⟨ts, hts, rfl⟩ := List.sublist_map_iff.mp hks
  have hindices : (Forest.ofTrees ts).indices.Sublist f.indices := by
    rw [Forest.indices_ofTrees, ← Forest.treeIndices_trees f]
    exact hts.flatMap _
  have hbelow : ∀ t ∈ ts, ∀ j ∈ t.2.indices, nodes'[j]? = nodes[j]? :=
    fun t ht j hj => h.frame j (Forest.not_root_of_below hg.nodup (hts.subset ht) hj)
  have hfits := hg.fits
  rw [← Forest.ofTrees_trees f, fits_ofTrees] at hfits
  refine ⟨Forest.ofTrees ts, ⟨?_, ?_, hg.nodup.sublist hindices⟩, Forest.roots_ofTrees ts, hindices⟩
  · refine hchain.linked fun t ht => ?_
    obtain ⟨n, hn, hlinked⟩ := hg.linked.subtree t (hts.subset ht)
    obtain ⟨n', hn', next, role, rfl⟩ := h.node t.1 n hn
    exact ⟨_, hn', hlinked.frame (hbelow t ht)⟩
  · refine fits_ofTrees.mpr fun t ht => ?_
    obtain ⟨⟨n, hn, hfit⟩, hft⟩ := hfits t (hts.subset ht)
    obtain ⟨n', hn', next, role, rfl⟩ := h.node t.1 n hn
    refine ⟨⟨_, hn', ?_⟩, hft.frame (hbelow t ht)⟩
    have hroles : rolesOf nodes' t.2.roots = rolesOf nodes t.2.roots :=
      rolesOf_congr fun c hc => hbelow t ht c (Forest.mem_indices_of_mem_roots hc)
    obtain ⟨op, hop, hpay, hshape⟩ := (hfit.congr hroles).opcode
    exact ⟨hfit.childCount, hfit.lastChild, op, hop, ⟨hpay.text, hpay.names, hpay.typeName, hpay.binary, hpay.unary⟩,
      hshape⟩

/-! ## Pruning -/

/-- Dropping children in a statement role keeps the shape. -/
theorem Shape.pruned {roles roles' : List (Option VntIrEdgeRole)} {op : VntIrOpcode} (h : Shape roles op)
    (hsub : roles'.Sublist roles) (hcount : ∀ r, statementRole r = false → roles'.count r = roles.count r) :
    Shape roles' op := by
  have hall : ∀ {p : Option VntIrEdgeRole → Prop}, (∀ r ∈ roles, p r) → ∀ r ∈ roles', p r :=
    fun hp r hr => hp r (hsub.subset hr)
  -- A list without statement roles loses nothing.
  have hsame : (∀ r ∈ roles, statementRole r = false) → roles' = roles := by
    intro hno
    have hperm : roles'.Perm roles := by
      rw [List.perm_iff_count]
      intro r
      by_cases hr : statementRole r = false
      · exact hcount r hr
      · rw [List.count_eq_zero.mpr fun hmem => hr (hno r hmem),
          List.count_eq_zero.mpr fun hmem => hr (hno r (hsub.subset hmem))]
    exact hsub.eq_of_length hperm.length_eq
  cases op <;> simp only [Shape] at h ⊢
  case program | function | call | array => exact hall h
  case «if» | «while» =>
    refine ⟨?_, hall h.2⟩
    rw [hcount _ rfl]
    exact h.1
  case print | «return» | variableDecl | index | assign | binary =>
    rw [hsame]
    · exact h
    · rcases h with rfl | rfl <;> decide
  all_goals
    rw [hsame]
    · exact h
    · rw [h]
      decide

/-- The state of the loop after the children in front of `rest`, of which it has kept `ks`. -/
structure PruneState (nodes : List VntIrNode) (cs : List Nat) (s : Pruning) (ks rest : List Nat) : Prop where
  relinked : Relinked ks nodes s.nodes
  roles : ∀ j : Nat, (s.nodes[j]?).bind VntIrNode.role = (nodes[j]?).bind VntIrNode.role
  first : s.first = ks.head?
  last : s.last = ks.getLast?
  kept : s.kept = ks.length
  segment : Segment VntIrNode.nextSibling s.nodes s.first ks.dropLast s.last
  part : (ks ++ rest).Sublist cs
  counts : ∀ r, statementRole r = false → (rolesOf nodes (ks ++ rest)).count r = (rolesOf nodes cs).count r

theorem Relinked.mono {cs ds : List Nat} (h : Relinked cs nodes nodes') (hsub : cs ⊆ ds) : Relinked ds nodes nodes' :=
  ⟨h.length, fun j hj => h.frame j fun hmem => hj (hsub hmem), h.node⟩

/-- Link the last node of a segment to `m`. -/
theorem Segment.relink {l : Option Nat} {cs : List Nat} {d : Nat} {n : VntIrNode} (m : Option Nat)
    (h : Segment VntIrNode.nextSibling nodes l cs (some d)) (hn : nodes[d]? = some n) (hd : d ∉ cs) :
    Segment VntIrNode.nextSibling (nodes.set d { n with nextSibling := m }) l (cs ++ [d]) m := by
  refine Segment.snoc (h.frame fun c hc => getElem?_set_ne' ?_) (getElem?_set_self' hn) rfl
  rintro rfl
  exact hd hc

theorem dropLast_append_last {ks : List Nat} {d : Nat} (h : ks.getLast? = some d) : ks.dropLast ++ [d] = ks :=
  List.dropLast_append_getLast? d h

/-- Keep the child `c`. -/
theorem PruneState.keep {cs ks rest : List Nat} {s : Pruning} {c : Nat} (terminated : List (Option VntIrEdgeRole))
    (h : PruneState nodes cs s ks (c :: rest)) (hcs : cs.Nodup) (hin : ∀ d ∈ cs, d < nodes.length) :
    ∃ linked, linkAfter s.nodes s.last (some c) = .ok linked ∧
      PruneState nodes cs ⟨linked, s.first.or (some c), some c, s.kept + 1, terminated, s.changed⟩ (ks ++ [c]) rest := by
  have hassoc : ks ++ [c] ++ rest = ks ++ c :: rest := by simp
  have hnd : (ks ++ c :: rest).Nodup := hcs.sublist h.part
  have hmono : ks ⊆ ks ++ [c] := List.subset_append_left ks [c]
  cases hlast : ks.getLast? with
  | none =>
      obtain rfl : ks = [] := List.getLast?_eq_none_iff.mp hlast
      have hfirst : s.first = none := h.first
      refine ⟨s.nodes, by rw [h.last]; rfl, ⟨h.relinked.mono hmono, h.roles, ?_, rfl, ?_, ?_, ?_, ?_⟩⟩
      · rw [hfirst]
        rfl
      · rw [h.kept]
        rfl
      · show s.first.or (some c) = some c
        rw [hfirst]
        rfl
      · rw [hassoc]
        exact h.part
      · rw [hassoc]
        exact h.counts
  | some d =>
      have hsplit := dropLast_append_last hlast
      have hd : d ∈ ks := by
        rw [← hsplit]
        simp
      have hdrop : d ∉ ks.dropLast := by
        have hnodup := (List.nodup_append.mp hnd).1
        rw [← hsplit, List.nodup_append] at hnodup
        exact fun hmem => hnodup.2.2 d hmem d (by simp) rfl
      have hlt : d < s.nodes.length := by
        rw [h.relinked.length]
        exact hin d (h.part.subset (List.mem_append_left _ hd))
      have hnode := List.getElem?_eq_getElem hlt
      generalize s.nodes[d] = n at hnode
      have hfirst : ∃ a, s.first = some a := by
        rw [h.first]
        cases ks with
        | nil => cases hlast
        | cons a ks => exact ⟨a, rfl⟩
      obtain ⟨a, hfirst⟩ := hfirst
      have hseg := h.segment
      rw [h.last, hlast] at hseg
      have hseg' := Segment.relink (some c) hseg hnode hdrop
      rw [hsplit] at hseg'
      refine ⟨s.nodes.set d { n with nextSibling := some c }, ?_, ⟨?_, ?_, ?_, ?_, ?_, ?_, ?_, ?_⟩⟩
      · rw [h.last, hlast]
        simp only [linkAfter, access_eq_ok.mpr hnode, bind, Except.bind, pure, Except.pure]
      · exact (h.relinked.trans (Relinked.set hd hnode (some c) n.role)).mono hmono
      · intro j
        rw [← h.roles j]
        show ((s.nodes.set d { n with nextSibling := some c })[j]?).bind VntIrNode.role = _
        by_cases hdj : d = j
        · subst hdj
          rw [getElem?_set_self' hnode, hnode]
          rfl
        · rw [getElem?_set_ne' hdj]
      · rw [hfirst, Option.some_or, ← hfirst, h.first]
        cases ks with
        | nil => cases hlast
        | cons a ks => rfl
      · simp
      · rw [List.length_append, h.kept]
        rfl
      · rw [List.dropLast_concat, hfirst, Option.some_or, ← hfirst]
        exact hseg'
      · rw [hassoc]
        exact h.part
      · rw [hassoc]
        exact h.counts

theorem PruneState.drop {cs ks rest : List Nat} {s : Pruning} {c : Nat} {n : VntIrNode}
    (h : PruneState nodes cs s ks (c :: rest)) (hn : nodes[c]? = some n) (hrole : statementRole n.role = true) :
    PruneState nodes cs { s with changed := s.changed + 1 } ks rest := by
  refine ⟨h.relinked, h.roles, h.first, h.last, h.kept, h.segment, ?_, fun r hr => ?_⟩
  · exact ((List.sublist_cons_self c rest).append_left ks).trans h.part
  · rw [← h.counts r hr]
    unfold rolesOf
    rw [List.map_append, List.map_append, List.map_cons, List.count_append, List.count_append, List.count_cons, hn,
      Option.bind_some, if_neg]
    · rfl
    · rw [beq_iff_eq]
      rintro rfl
      rw [hr] at hrole
      cases hrole

theorem pruneLoop_total {cs rest : List Nat} (hcs : cs.Nodup) (hin : ∀ d ∈ cs, d < nodes.length) :
    ∀ {fuel : Nat} {s : Pruning} {ks : List Nat} {old : Option Nat}, Chain nodes old rest →
      PruneState nodes cs s ks rest → rest.length ≤ fuel →
      ∃ s' ks', pruneLoop fuel s old = .ok s' ∧ PruneState nodes cs s' ks' [] := by
  induction rest with
  | nil =>
      intro fuel s ks old hold hs _
      obtain rfl : old = none := hold
      exact ⟨s, ks, by cases fuel <;> rfl, hs⟩
  | cons c rest ih =>
      intro fuel s ks old hold hs hf
      obtain ⟨rfl, n, hn, hrest⟩ := hold
      cases fuel with
      | zero => exact absurd hf (by simp)
      | succ fuel =>
          have hc : s.nodes[c]? = some n := by
            rw [hs.relinked.frame c, hn]
            intro hmem
            have hnd := List.nodup_append.mp (hcs.sublist hs.part)
            exact hnd.2.2 c hmem c List.mem_cons_self rfl
          simp only [pruneLoop, access_eq_ok.mpr hc, bind, Except.bind]
          split
          · rename_i hdrop
            exact ih hrest (hs.drop hn (Bool.and_eq_true_iff.mp hdrop).1) (Nat.le_of_succ_le_succ hf)
          · obtain ⟨linked, hlinked, hs'⟩ := hs.keep
              (if (statementRole n.role && n.isExit) = true then n.role :: s.terminated else s.terminated) hcs hin
            rw [hlinked]
            exact ih hrest hs' (Nat.le_of_succ_le_succ hf)

/-- Cutting behind the last node of a segment ends the chain there. -/
theorem linkAfter_cut {l : Option Nat} {ks : List Nat} (hnd : ks.Nodup) (hin : ∀ d ∈ ks, d < nodes.length)
    (hseg : Segment VntIrNode.nextSibling nodes l ks.dropLast ks.getLast?) :
    ∃ cut, linkAfter nodes ks.getLast? none = .ok cut ∧ Relinked ks nodes cut ∧ Chain cut l ks ∧
      ∀ j : Nat, (cut[j]?).bind VntIrNode.role = (nodes[j]?).bind VntIrNode.role := by
  cases hlast : ks.getLast? with
  | none =>
      obtain rfl : ks = [] := List.getLast?_eq_none_iff.mp hlast
      exact ⟨nodes, rfl, Relinked.refl _ _, hseg, fun _ => rfl⟩
  | some d =>
      have hsplit := dropLast_append_last hlast
      rw [hlast] at hseg
      have hd : d ∈ ks := by
        rw [← hsplit]
        simp
      have hdrop : d ∉ ks.dropLast := by
        rw [← hsplit, List.nodup_append] at hnd
        exact fun hmem => hnd.2.2 d hmem d (by simp) rfl
      obtain ⟨n, hnode⟩ : ∃ n, nodes[d]? = some n := ⟨_, List.getElem?_eq_getElem (hin d hd)⟩
      have hseg' := Segment.relink none hseg hnode hdrop
      rw [hsplit, segment_none] at hseg'
      refine ⟨nodes.set d { n with nextSibling := none }, ?_, Relinked.set hd hnode none n.role, hseg', ?_⟩
      · simp only [linkAfter, access_eq_ok.mpr hnode, bind, Except.bind, pure, Except.pure]
      · intro j
        by_cases hdj : d = j
        · subst hdj
          rw [getElem?_set_self' hnode, hnode]
          rfl
        · rw [getElem?_set_ne' hdj]

theorem rolesOf_set {index : Nat} {m : VntIrNode} {cs : List Nat} (h : index ∉ cs) :
    rolesOf (nodes.set index m) cs = rolesOf nodes cs := by
  refine rolesOf_congr fun c hc => getElem?_set_ne' ?_
  rintro rfl
  exact h hc

/-- A node takes part of its old children, relinked, as its children. -/
theorem NodeReworked.adopt {Q : List VntIrNode → VntIrNode → List Nat → Prop} {index : Nat} {n n' : VntIrNode}
    {ch ch' : Forest} (hn : nodes[index]? = some n) (hi : index ∉ ch.indices) (hre : Relinked ch.roots nodes nodes')
    (hg : Grove nodes' n'.firstChild ch') (hkept : ch'.indices.Sublist ch.indices) (hrole : n'.role = n.role)
    (hnext : n'.nextSibling = n.nextSibling) (hop : n.opcode = some .program → n'.opcode = some .program)
    (hq : Q (nodes'.set index n') n' ch'.roots) : NodeReworked Q nodes (nodes'.set index n') index ch ch' := by
  have hindex : index ∉ ch.roots := fun hmem => hi (Forest.mem_indices_of_mem_roots hmem)
  have hn' : nodes'[index]? = some n := by rw [hre.frame index hindex, hn]
  have hbelow : ∀ j ∈ ch'.indices, (nodes'.set index n')[j]? = nodes'[j]? := by
    intro j hj
    refine getElem?_set_ne' ?_
    rintro rfl
    exact hi (hkept.subset hj)
  refine ⟨?_, ?_, ?_, ?_, hg.fits.frame hbelow, hkept⟩
  · rw [List.length_set, hre.length]
  · intro j hj
    rw [List.mem_cons, not_or] at hj
    rw [getElem?_set_ne' (Ne.symm hj.1), hre.frame j fun hmem => hj.2 (Forest.mem_indices_of_mem_roots hmem)]
  · exact ⟨n, n', hn, getElem?_set_self' hn', hrole, hnext, hg.linked.frame hbelow, hq⟩
  · intro m m' hm hm' hprogram
    obtain rfl : n = m := Option.some.inj (hn.symm.trans hm)
    obtain rfl : n' = m' := Option.some.inj ((getElem?_set_self' hn').symm.trans hm')
    exact hop hprogram

/-- `hir_prune_sequence` on a node with the right children: it makes their number and the last of them right. -/
theorem hirPruneSequence_reworked {fuel index changed : Nat} {n : VntIrNode} {ch : Forest}
    (hn : nodes[index]? = some n) (hg : Grove nodes n.firstChild ch) (hi : index ∉ ch.indices)
    (hloose : Loose nodes n ch.roots) (hf : ch.roots.length ≤ fuel) :
    ∃ nodes' changed' ch', hirPruneSequence fuel nodes index changed = .ok (nodes', changed') ∧
      NodeReworked NodeFits nodes nodes' index ch ch' := by
  have hroots : ch.roots.Nodup := hg.nodup.sublist (Forest.roots_sublist_indices ch)
  have hin : ∀ d ∈ ch.roots, d < nodes.length := fun d hd => hg.linked.lt d (Forest.mem_indices_of_mem_roots hd)
  have hstart : PruneState nodes ch.roots ⟨nodes, none, none, 0, [], changed⟩ [] ch.roots :=
    ⟨Relinked.refl _ _, fun _ => rfl, rfl, rfl, rfl, rfl, List.Sublist.refl _, fun _ _ => rfl⟩
  obtain ⟨s, ks, hrun, hs⟩ := pruneLoop_total hroots hin hg.linked.chain hstart hf
  have hpart := hs.part
  rw [List.append_nil] at hpart
  have hseg := hs.segment
  rw [hs.last] at hseg
  obtain ⟨cut, hcut, hre, hchain, hroles⟩ := linkAfter_cut (hroots.sublist hpart)
    (fun d hd => by rw [hs.relinked.length]; exact hin d (hpart.subset hd)) hseg
  have hre' : Relinked ch.roots nodes cut := (hs.relinked.trans hre).mono hpart.subset
  obtain ⟨ch', hg', hks, hkept⟩ := hre'.grove hg hpart hchain
  have hindex : index ∉ ch.roots := fun hmem => hi (Forest.mem_indices_of_mem_roots hmem)
  have hn' : cut[index]? = some n := by rw [hre'.frame index hindex, hn]
  refine ⟨cut.set index { n with firstChild := s.first, lastChild := ks.getLast?, childCount := s.kept }, s.changed,
    ch', ?_, NodeReworked.adopt hn hi hre' hg' hkept rfl rfl id ?_⟩
  · simp only [hirPruneSequence, access_eq_ok.mpr hn, hrun, hs.last, hcut, access_eq_ok.mpr hn', bind, Except.bind,
      pure, Except.pure]
  · obtain ⟨op, hop, hpay, hshape⟩ := hloose
    rw [hks]
    refine ⟨hs.kept, rfl, op, hop, ⟨hpay.text, hpay.names, hpay.typeName, hpay.binary, hpay.unary⟩, ?_⟩
    rw [rolesOf_set fun hmem => hindex (hpart.subset hmem),
      show rolesOf cut ks = rolesOf nodes ks from List.map_congr_left fun c _ => by rw [hroles c, hs.roles c]]
    refine hshape.pruned (hpart.map _) fun r hr => ?_
    have hcounts := hs.counts r hr
    rwa [List.append_nil] at hcounts

/-! ## Constant branches -/

theorem Segment.to_last {l m : Option Nat} {cs : List Nat} (h : Segment VntIrNode.nextSibling nodes l cs m) :
    cs = [] ∨ Segment VntIrNode.nextSibling nodes l cs.dropLast cs.getLast? := by
  induction cs generalizing l with
  | nil => exact .inl rfl
  | cons c cs ih =>
      obtain ⟨rfl, n, hn, hcs⟩ := h
      refine .inr ?_
      rcases ih hcs with rfl | hrest
      · rfl
      · cases cs with
        | nil => rfl
        | cons d cs =>
            rw [List.dropLast_cons_cons, List.getLast?_cons_cons]
            exact ⟨rfl, n, hn, hrest⟩

theorem Segment.head {l m : Option Nat} {cs : List Nat} (h : Segment VntIrNode.nextSibling nodes l cs m)
    (hne : cs ≠ []) : l = cs.head? := by
  cases cs with
  | nil => exact absurd rfl hne
  | cons c cs => exact h.1

/-- The range of the chosen branch is a part `ks` of the children without gaps. -/
theorem chosenRange_total {chosen : VntIrEdgeRole} {rest : List Nat} : ∀ {fuel count : Nat} {l : Option Nat}
    {a ks b : List Nat}, Chain nodes l rest → rest.length ≤ fuel →
      ∃ count' a' ks' b', chosenRange nodes chosen fuel l ks.head? ks.getLast? count =
        .ok (ks'.head?, ks'.getLast?, count') ∧ a ++ (ks ++ (b ++ rest)) = a' ++ (ks' ++ b') := by
  induction rest with
  | nil =>
      intro fuel count l a ks b hl _
      obtain rfl : l = none := hl
      exact ⟨count, a, ks, b, by cases fuel <;> rfl, by simp⟩
  | cons c rest ih =>
      intro fuel count l a ks b hl hf
      obtain ⟨rfl, n, hn, hrest⟩ := hl
      cases fuel with
      | zero => exact absurd hf (by simp)
      | succ fuel =>
          simp only [chosenRange, access_eq_ok.mpr hn, bind, Except.bind]
          split
          · obtain ⟨count', a', ks', b', hrun, hsplit⟩ := @ih fuel count _ a ks (b ++ [c]) hrest
              (Nat.le_of_succ_le_succ hf)
            exact ⟨count', a', ks', b', hrun, by rw [← hsplit]; simp⟩
          · cases ks with
            | nil =>
                obtain ⟨count', a', ks', b', hrun, hsplit⟩ := @ih fuel (count + 1) _ (a ++ b) [c] [] hrest
                  (Nat.le_of_succ_le_succ hf)
                exact ⟨count', a', ks', b', hrun, by rw [← hsplit]; simp⟩
            | cons d ks =>
                obtain ⟨count', a', ks', b', hrun, hsplit⟩ := @ih fuel (count + 1) _ a (d :: ks ++ b ++ [c]) [] hrest
                  (Nat.le_of_succ_le_succ hf)
                refine ⟨count', a', ks', b', ?_, by rw [← hsplit]; simp⟩
                rw [List.getLast?_concat] at hrun
                exact hrun

theorem makeStatements_total {ks : List Nat} : ∀ {nodes : List VntIrNode} {fuel : Nat} {l : Option Nat},
    Chain nodes l ks → ks.Nodup → ks.length ≤ fuel →
      ∃ nodes', makeStatements fuel nodes l = .ok nodes' ∧ Relinked ks nodes nodes' ∧ Chain nodes' l ks ∧
        ∀ c ∈ ks, (nodes'[c]?).bind VntIrNode.role = some .statement := by
  induction ks with
  | nil =>
      intro nodes fuel l hl _ _
      obtain rfl : l = none := hl
      exact ⟨nodes, by cases fuel <;> rfl, Relinked.refl _ _, rfl, by simp⟩
  | cons c ks ih =>
      intro nodes fuel l hl hnd hf
      obtain ⟨rfl, n, hn, hks⟩ := hl
      obtain ⟨hc, hnd'⟩ := List.nodup_cons.mp hnd
      cases fuel with
      | zero => exact absurd hf (by simp)
      | succ fuel =>
          have hframe : Chain (nodes.set c { n with role := some .statement }) n.nextSibling ks := by
            refine segment_none.mp ((segment_none.mpr hks).frame fun d hd => getElem?_set_ne' ?_)
            rintro rfl
            exact hc hd
          obtain ⟨nodes', hrun, hre, hchain, hall⟩ := ih hframe hnd' (Nat.le_of_succ_le_succ hf)
          have hnew : nodes'[c]? = some { n with role := some .statement } := by
            rw [hre.frame c hc, getElem?_set_self' hn]
          refine ⟨nodes', ?_, ?_, ⟨rfl, _, hnew, hchain⟩, ?_⟩
          · simp only [makeStatements, access_eq_ok.mpr hn, hrun, bind, Except.bind]
          · exact (Relinked.set List.mem_cons_self hn n.nextSibling (some .statement)).trans
              (hre.mono (List.subset_cons_self c ks))
          · intro d hd
            rcases List.mem_cons.mp hd with rfl | hd
            · rw [hnew]
              rfl
            · exact hall d hd

theorem NodeReworked.refl {P : List VntIrNode → VntIrNode → List Nat → Prop} {index : Nat} {n : VntIrNode} {ch : Forest}
    (hn : nodes[index]? = some n) (hg : Grove nodes n.firstChild ch) (hp : P nodes n ch.roots) :
    NodeReworked P nodes nodes index ch ch :=
  ⟨rfl, fun _ _ => rfl, ⟨n, n, hn, hn, rfl, rfl, hg.linked, hp⟩,
    fun _ _ hm hm' hop => Option.some.inj (hm.symm.trans hm') ▸ hop, hg.fits, List.Sublist.refl _⟩

theorem NodeFits.loose {n : VntIrNode} {cs : List Nat} (h : NodeFits nodes n cs) : Loose nodes n cs := h.opcode

theorem constantCondition_total {fuel index : Nat} {n : VntIrNode} {ch : Forest} (h : Tree nodes index n ch)
    (hf : ch.roots.length ≤ fuel) : ∃ r, constantCondition fuel nodes index = .ok r := by
  obtain ⟨r, hr, hmem⟩ : ∃ r, siblingRole nodes .condition fuel n.firstChild = .ok r ∧
      ∀ c, r = some c → c ∈ ch.roots := siblingRole_chain h.linked.chain hf
  simp only [constantCondition, hirChildRole, access_eq_ok.mpr h.at_index, hr, bind, Except.bind, pure, Except.pure]
  cases r with
  | none => exact ⟨_, rfl⟩
  | some c =>
      obtain ⟨m, sub, htree, -⟩ := h.grove.child (hmem c rfl)
      simp only [access_eq_ok.mpr htree.at_index]
      exact ⟨_, rfl⟩

/-- The children from the first to the last of the chosen branch, as the children of a `PROGRAM`. -/
theorem chosen_adopted {fuel index : Nat} {n : VntIrNode} {ch : Forest} (h : Tree nodes index n ch)
    (hop : n.opcode = some .if) (hf : ch.roots.length ≤ fuel) {a ks b : List Nat} (hsplit : ch.roots = a ++ (ks ++ b))
    (count : Nat) :
    ∃ cut made ch', linkAfter nodes ks.getLast? none = .ok cut ∧ makeStatements fuel cut ks.head? = .ok made ∧
      made[index]? = some n ∧
      NodeReworked Loose nodes (made.set index
        { n with opcode := some .program, firstChild := ks.head?, lastChild := ks.getLast?, childCount := count })
        index ch ch' := by
  obtain ⟨hi, hnd⟩ := List.nodup_cons.mp h.nodup
  have hroots : ch.roots.Nodup := hnd.sublist (Forest.roots_sublist_indices ch)
  have hpart : ks.Sublist ch.roots := by
    rw [hsplit]
    exact (List.sublist_append_left ks b).trans (List.sublist_append_right a _)
  have hks : ks.Nodup := hroots.sublist hpart
  have hin : ∀ d ∈ ks, d < nodes.length :=
    fun d hd => h.linked.lt d (Forest.mem_indices_of_mem_roots (hpart.subset hd))
  have hseg : Segment VntIrNode.nextSibling nodes ks.head? ks.dropLast ks.getLast? := by
    have hall := segment_none.mpr h.linked.chain
    rw [hsplit] at hall
    obtain ⟨k, -, hrest⟩ := hall.split
    obtain ⟨m, hchosen, -⟩ := hrest.split
    by_cases hne : ks = []
    · subst hne
      rfl
    · rw [← Segment.head hchosen hne]
      exact (Segment.to_last hchosen).resolve_left hne
  obtain ⟨cut, hcut, hre, hchain, -⟩ := linkAfter_cut hks hin hseg
  obtain ⟨made, hmade, hre', hchain', hroles⟩ := makeStatements_total hchain hks (hpart.length_le.trans hf)
  have hrelinked : Relinked ch.roots nodes made := (hre.trans hre').mono hpart.subset
  obtain ⟨ch', hg', hroots', hkept⟩ := hrelinked.grove h.grove hpart hchain'
  have hindex : index ∉ ch.roots := fun hmem => hi (Forest.mem_indices_of_mem_roots hmem)
  have hn' : made[index]? = some n := by rw [hrelinked.frame index hindex, h.at_index]
  refine ⟨cut, made, ch', hcut, hmade, hn', NodeReworked.adopt h.at_index hi hrelinked hg' hkept rfl rfl
    (fun _ => rfl) ?_⟩
  obtain ⟨op, hop', hpay, -⟩ := h.nodeFits.opcode
  obtain rfl : op = .if := Option.some.inj (hop'.symm.trans hop)
  obtain ⟨hnames, htype⟩ := hpay.plain (by simp) (by simp) (by simp) (by simp)
  refine ⟨.program, rfl, payloadFits_bare hnames htype rfl (by simp) (by simp), ?_⟩
  rw [hroots', rolesOf_set fun hmem => hindex (hpart.subset hmem)]
  intro r hr
  obtain ⟨c, hc, rfl⟩ := List.mem_map.mp hr
  exact hroles c hc

/-- A `WHILE` whose condition is false becomes an empty `PROGRAM`. -/
theorem while_emptied {index : Nat} {n : VntIrNode} {ch : Forest} (h : Tree nodes index n ch)
    (hop : n.opcode = some .while) :
    NodeReworked Loose nodes (nodes.set index
      { n with opcode := some .program, firstChild := none, lastChild := none, childCount := 0 }) index ch .nil := by
  refine NodeReworked.adopt h.at_index (List.nodup_cons.mp h.nodup).1 (Relinked.refl _ _)
    ⟨rfl, fits_nil, List.nodup_nil⟩ (List.nil_sublist _) rfl rfl (fun _ => rfl) ?_
  obtain ⟨op, hop', hpay, -⟩ := h.nodeFits.opcode
  obtain rfl : op = .while := Option.some.inj (hop'.symm.trans hop)
  obtain ⟨hnames, htype⟩ := hpay.plain (by simp) (by simp) (by simp) (by simp)
  exact ⟨.program, rfl, payloadFits_bare hnames htype rfl (by simp) (by simp), fun r hr => by cases hr⟩

theorem simplifyNode_reworked {fuel index changed : Nat} {n : VntIrNode} {ch : Forest} (h : Tree nodes index n ch)
    (hf : ch.roots.length ≤ fuel) :
    ∃ nodes' changed' ch', simplifyNode fuel nodes index changed = .ok (nodes', changed') ∧
      NodeReworked Loose nodes nodes' index ch ch' := by
  have hsame : NodeReworked Loose nodes nodes index ch ch := NodeReworked.refl h.at_index h.grove h.nodeFits.loose
  obtain ⟨r, hr⟩ := constantCondition_total h hf
  simp only [simplifyNode, access_eq_ok.mpr h.at_index, hr, bind, Except.bind, pure, Except.pure]
  split
  · rename_i hop
    cases r with
    | none => exact ⟨nodes, changed, ch, rfl, hsame⟩
    | some condition =>
        obtain ⟨count, a, ks, b, hrun, hsplit⟩ :=
          @chosenRange_total nodes (if condition then .then else .else) _ fuel 0 _ [] [] [] h.linked.chain hf
        obtain ⟨cut, made, ch', hcut, hmade, hn', hre⟩ := chosen_adopted h hop hf hsplit count
        simp only [List.head?_nil, List.getLast?_nil] at hrun
        simp only [hrun, hcut, hmade, access_eq_ok.mpr hn']
        exact ⟨_, _, ch', rfl, hre⟩
  split
  · rename_i hop
    rcases r with - | (- | -)
    · exact ⟨nodes, changed, ch, rfl, hsame⟩
    · exact ⟨_, _, .nil, rfl, while_emptied h hop⟩
    · exact ⟨nodes, changed, ch, rfl, hsame⟩
  · exact ⟨nodes, changed, ch, rfl, hsame⟩

/-! ## The pass -/

/-- One node, given what the loop does to its children. -/
theorem hirSimplifyControlFlow_of_children {fuel index changed changed' : Nat} {n : VntIrNode} {ch ch' : Forest}
    (h : Tree nodes index n ch) (hf : ch.indices.length ≤ fuel)
    (hrun : simplifyChildren fuel nodes n.firstChild changed = .ok (nodes', changed'))
    (hch : Reworked nodes nodes' n.firstChild ch ch') :
    ∃ nodes'' changed'' ch'', hirSimplifyControlFlow (fuel + 1) nodes index changed = .ok (nodes'', changed'') ∧
      NodeReworked NodeFits nodes nodes'' index ch ch'' := by
  have hdone := NodeReworked.of_children h.at_index (List.nodup_cons.mp h.nodup).1 h.nodeFits hch
  obtain ⟨n₁, h₁, -, -⟩ := h.reworked hdone
  have hlen₁ : ch'.roots.length ≤ fuel :=
    ((Forest.roots_sublist_indices ch').trans hdone.kept).length_le.trans hf
  obtain ⟨nodes₂, changed₂, ch₂, hrun₂, hre₂⟩ : ∃ nodes₂ changed₂ ch₂,
      simplifyNode fuel nodes' index changed' = .ok (nodes₂, changed₂) ∧
        NodeReworked Loose nodes' nodes₂ index ch' ch₂ := simplifyNode_reworked h₁ hlen₁
  obtain ⟨m, n₂, -, hn₂, -, -, hlinked₂, hloose⟩ := hre₂.node
  obtain ⟨hi₂, hnd₂⟩ := List.nodup_cons.mp (h₁.nodup.sublist (hre₂.kept.cons_cons index))
  have hlen₂ : ch₂.roots.length ≤ fuel :=
    (((Forest.roots_sublist_indices ch₂).trans hre₂.kept).trans hdone.kept).length_le.trans hf
  obtain ⟨nodes₃, changed₃, ch₃, hrun₃, hre₃⟩ : ∃ nodes₃ changed₃ ch₃,
      hirPruneSequence fuel nodes₂ index changed₂ = .ok (nodes₃, changed₃) ∧
        NodeReworked NodeFits nodes₂ nodes₃ index ch₂ ch₃ :=
    hirPruneSequence_reworked hn₂ ⟨hlinked₂, hre₂.fits, hnd₂⟩ hi₂ hloose hlen₂
  refine ⟨nodes₃, changed₃, ch₃, ?_, (hdone.trans hre₂).trans hre₃⟩
  simp only [hirSimplifyControlFlow, access_eq_ok.mpr h.at_index, hrun, hrun₂, hrun₃, bind, Except.bind]

theorem simplifyChildren_reworked (g : Forest) : ∀ (nodes : List VntIrNode) (fuel changed : Nat) (l : Option Nat),
    Grove nodes l g → 2 * g.indices.length ≤ fuel →
      ∃ nodes' changed' g', simplifyChildren fuel nodes l changed = .ok (nodes', changed') ∧
        Reworked nodes nodes' l g g' := by
  induction g with
  | nil =>
      intro nodes fuel changed l hg _
      obtain rfl : l = none := hg.linked
      exact ⟨nodes, changed, .nil, by cases fuel <;> rfl, Reworked.nil⟩
  | node i ch sib ihc ihs =>
      intro nodes fuel changed l hg hf
      obtain ⟨rfl, n, htree, hrest⟩ := hg.cons
      rw [Forest.indices_node, List.length_cons, List.length_append] at hf
      obtain ⟨fuel, rfl⟩ : ∃ k, fuel = k + 2 := ⟨fuel - 2, by omega⟩
      obtain ⟨nodes₁, changed₁, ch₁, hrun₁, hre₁⟩ := ihc nodes fuel changed n.firstChild htree.grove (by omega)
      obtain ⟨nodes₂, changed₂, ch₂, hrun₂, hre₂⟩ :=
        hirSimplifyControlFlow_of_children htree (by omega) hrun₁ hre₁
      obtain ⟨hsib₂, hfs₂⟩ := hre₂.siblings hg.nodup hrest.linked hrest.fits
      obtain ⟨nodes₃, changed₃, sib₃, hrun₃, hre₃⟩ :=
        ihs nodes₂ (fuel + 1) changed₂ n.nextSibling ⟨hsib₂, hfs₂, hrest.nodup⟩ (by omega)
      refine ⟨nodes₃, changed₃, .node i ch₂ sib₃, ?_, NodeReworked.cons hg.nodup htree.at_index hre₂ hre₃⟩
      simp only [simplifyChildren, access_eq_ok.mpr htree.at_index, hrun₂, hrun₃, bind, Except.bind]

theorem hirSimplifyControlFlow_reworked {fuel index : Nat} (changed : Nat) {n : VntIrNode} {ch : Forest}
    (h : Tree nodes index n ch) (hf : 2 * ch.indices.length < fuel) :
    ∃ nodes' changed' ch', hirSimplifyControlFlow fuel nodes index changed = .ok (nodes', changed') ∧
      NodeReworked NodeFits nodes nodes' index ch ch' := by
  obtain ⟨fuel, rfl⟩ : ∃ k, fuel = k + 1 := ⟨fuel - 1, by omega⟩
  obtain ⟨nodes₁, changed₁, ch₁, hrun, hre⟩ :=
    simplifyChildren_reworked ch nodes fuel changed n.firstChild h.grove (by omega)
  exact hirSimplifyControlFlow_of_children h (by omega) hrun hre

end Vnt.Arena
