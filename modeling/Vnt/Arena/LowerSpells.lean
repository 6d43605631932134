import Vnt.Arena.Spells

/-!
# `Arena.LowerSpells` — the array `lower_node` writes

`Lowered` is what lowering a child pointer of node `k` does to the array: the children stand behind everything that
was there, the parent and its last child so far are linked to them, and no other node has changed. Two such steps
compose, which is how the siblings of a list and the child pointers of one node follow one another.
-/

namespace Vnt.Arena

variable {nodes nodes' nodes₁ nodes₂ : List VntIrNode} {role : VntIrEdgeRole}

/-! ## Relinking the end of a chain -/

/-- `nodes'` has another link behind the last of the siblings `ds`. -/
structure Relinks (nodes nodes' : List VntIrNode) (ds : List Nat) (m : Option Nat) (j : Nat) : Prop where
  other : ds.getLast? ≠ some j → nodes'[j]? = nodes[j]?
  last : ds.getLast? = some j → nodes'[j]? = (nodes[j]?).map fun n => { n with nextSibling := m }

theorem Relinks.head {i : Nat} {n : Hir} {m : Option Nat} {p : VntIrNode} {cs : List Nat}
    (h : Relinks nodes nodes' (i :: siblings n) m i) (hi : i ∉ siblings n)
    (hp : nodes[i]? = some (p.placed role cs (start n none))) :
    nodes'[i]? = some (p.placed role cs (start n m)) := by
  by_cases hn : siblings n = []
  · have hlast := h.last (by rw [hn]; rfl)
    rw [hlast, hp, start, start, hn]
    rfl
  · obtain ⟨d, hd⟩ : ∃ d, (siblings n).getLast? = some d := ⟨_, List.getLast?_eq_some_getLast hn⟩
    have hother := h.other (by
      rw [List.getLast?_cons, hd, ne_eq, Option.some.injEq, Option.getD_some]
      rintro rfl
      exact hi (List.mem_of_getLast? hd))
    obtain ⟨a, l, hl⟩ := List.exists_cons_of_ne_nil hn
    rw [hother, hp, start, start, hl]
    rfl

theorem Relinks.tail {i j : Nat} {ds : List Nat} {m : Option Nat} (h : Relinks nodes nodes' (i :: ds) m j)
    (hij : i ≠ j) : Relinks nodes nodes' ds m j := by
  rcases List.eq_nil_or_concat ds with rfl | ⟨l, d, rfl⟩
  · refine ⟨fun _ => h.other ?_, fun hl => by cases hl⟩
    simpa using hij
  · rw [List.concat_eq_append] at *
    refine ⟨fun hl => h.other ?_, fun hl => h.last ?_⟩
    · simpa [List.getLast?_cons] using hl
    · simpa [List.getLast?_cons] using hl

/-- A node with what is below it (`below`) in front of its siblings. -/
theorem Relinks.node {i : Nat} {n : Hir} {m : Option Nat} {below : List Nat}
    (hnd : (i :: (below ++ positions n)).Nodup)
    (h : ∀ j ∈ i :: (below ++ positions n), Relinks nodes nodes' (i :: siblings n) m j) :
    (∀ (p : VntIrNode) (cs : List Nat), nodes[i]? = some (p.placed role cs (start n none)) →
      nodes'[i]? = some (p.placed role cs (start n m))) ∧
    (∀ j ∈ below, nodes'[j]? = nodes[j]?) ∧ (positions n).Nodup ∧
    ∀ j ∈ positions n, Relinks nodes nodes' (siblings n) m j := by
  simp only [List.nodup_cons, List.nodup_append, List.mem_append, not_or] at hnd
  obtain ⟨⟨hbelow, hi⟩, -, hn, hdisj⟩ := hnd
  have hin : i ∉ siblings n := fun hmem => hi (siblings_subset_positions n hmem)
  refine ⟨fun p cs hp => (h i List.mem_cons_self).head hin hp, fun j hj => ?_, hn, fun j hj => ?_⟩
  · refine (h j (List.mem_cons_of_mem _ (List.mem_append_left _ hj))).other fun hlast => ?_
    rcases List.mem_cons.mp (List.mem_of_getLast? hlast) with rfl | hmem
    · exact hbelow hj
    · exact hdisj j hj j (siblings_subset_positions n hmem) rfl
  · refine (h j (List.mem_cons_of_mem _ (List.mem_append_right _ hj))).tail ?_
    rintro rfl
    exact hi hj

theorem Spells.relink {h : Hir} {m : Option Nat} : ∀ {role : VntIrEdgeRole}, Spells nodes role h none →
    (positions h).Nodup → (∀ j ∈ positions h, Relinks nodes nodes' (siblings h) m j) → Spells nodes' role h m := by
  induction h with
  | nil => intro role h _ _; trivial
  | leaf i op n hn =>
      intro role h hnd hre
      obtain ⟨hnode, -, hnd', hre'⟩ := @Relinks.node nodes nodes' role i n m [] hnd hre
      exact ⟨hnode _ _ h.1, hn h.2 hnd' hre'⟩
  | one i op a n _ hn =>
      intro role h hnd hre
      obtain ⟨hnode, hbelow, hnd', hre'⟩ := Relinks.node hnd hre
      exact ⟨hnode _ _ h.1, h.2.1.frame hbelow, hn h.2.2 hnd' hre'⟩
  | two i op a b n _ _ hn =>
      intro role h hnd hre
      simp only [positions] at hnd hre
      rw [← List.append_assoc] at hnd hre
      obtain ⟨hnode, hbelow, hnd', hre'⟩ := Relinks.node hnd hre
      rw [List.forall_mem_append] at hbelow
      exact ⟨hnode _ _ h.1, h.2.1.frame hbelow.1, h.2.2.1.frame hbelow.2, hn h.2.2.2 hnd' hre'⟩
  | ifNode i c t e n _ _ _ hn =>
      intro role h hnd hre
      simp only [positions] at hnd hre
      rw [← List.append_assoc, ← List.append_assoc] at hnd hre
      obtain ⟨hnode, hbelow, hnd', hre'⟩ := Relinks.node hnd hre
      rw [List.append_assoc, List.forall_mem_append, List.forall_mem_append] at hbelow
      exact ⟨hnode _ _ h.1, h.2.1.frame hbelow.1, h.2.2.1.frame hbelow.2.1, h.2.2.2.1.frame hbelow.2.2,
        hn h.2.2.2.2 hnd' hre'⟩

/-! ## Chains behind one another -/

theorem siblings_append (h h' : Hir) : siblings (h.append h') = siblings h ++ siblings h' := by
  induction h <;> simp_all [Hir.append, siblings]

theorem positions_append (h h' : Hir) : positions (h.append h') = positions h ++ positions h' := by
  induction h <;> simp_all [Hir.append, positions]

theorem size_append (h h' : Hir) : (h.append h').size = h.size + h'.size := by
  induction h <;> simp_all [Hir.append, Hir.size] <;> omega

theorem start_append (h h' : Hir) (e : Option Nat) : start (h.append h') e = start h (start h' e) := by
  simp [start, siblings_append, Option.or_assoc]

theorem Spells.append {h h' : Hir} {e : Option Nat} : ∀ {role : VntIrEdgeRole}, Spells nodes role h (start h' e) →
    Spells nodes role h' e → Spells nodes role (h.append h') e := by
  induction h with
  | nil => intro role _ hs'; exact hs'
  | leaf i op n hn =>
      intro role hs hs'
      exact ⟨by rw [start_append]; exact hs.1, hn hs.2 hs'⟩
  | one i op a n _ hn =>
      intro role hs hs'
      exact ⟨by rw [start_append]; exact hs.1, hs.2.1, hn hs.2.2 hs'⟩
  | two i op a b n _ _ hn =>
      intro role hs hs'
      exact ⟨by rw [start_append]; exact hs.1, hs.2.1, hs.2.2.1, hn hs.2.2.2 hs'⟩
  | ifNode i c t e' n _ _ _ hn =>
      intro role hs hs'
      exact ⟨by rw [start_append]; exact hs.1, hs.2.1, hs.2.2.1, hs.2.2.2.1, hn hs.2.2.2.2 hs'⟩

/-- Behind the last sibling the chain ends. -/
theorem Spells.last {h : Hir} {d : Nat} : ∀ {role : VntIrEdgeRole}, Spells nodes role h none →
    (siblings h).getLast? = some d → ∃ n, nodes[d]? = some n ∧ n.nextSibling = none := by
  have node : ∀ {i : Nat} {n : Hir} {p : VntIrNode} {role : VntIrEdgeRole} {cs : List Nat},
      nodes[i]? = some (p.placed role cs (start n none)) →
      ((siblings n).getLast? = some d → ∃ n, nodes[d]? = some n ∧ n.nextSibling = none) →
      (i :: siblings n).getLast? = some d → ∃ n, nodes[d]? = some n ∧ n.nextSibling = none := by
    intro i n p role cs hi hrest hlast
    rw [List.getLast?_cons, Option.some.injEq] at hlast
    cases hn : (siblings n).getLast? with
    | none =>
        rw [hn] at hlast
        obtain rfl : i = d := hlast
        refine ⟨_, hi, ?_⟩
        show start n none = none
        rw [start, List.getLast?_eq_none_iff.mp hn]
        rfl
    | some d' =>
        rw [hn] at hlast
        obtain rfl : d' = d := hlast
        exact hrest hn
  induction h with
  | nil => intro role _ hl; cases hl
  | leaf i op n hn => intro role h hl; exact node h.1 (hn h.2) hl
  | one i op a n _ hn => intro role h hl; exact node h.1 (hn h.2.2) hl
  | two i op a b n _ _ hn => intro role h hl; exact node h.1 (hn h.2.2.2) hl
  | ifNode i c t e n _ _ _ hn => intro role h hl; exact node h.1 (hn h.2.2.2.2) hl

theorem siblings_eq_nil {h : Hir} : siblings h = [] ↔ h = .nil := by
  cases h <;> simp

/-! ## Lowered chains -/

/-- Node `k` has the payload and the children `cs` so far, and no sibling yet. -/
structure Opened (nodes : List VntIrNode) (k : Nat) (payload : VntIrNode) (cs : List Nat) : Prop where
  parent : nodes[k]? = some (payload.placed .root cs none)
  last : ∀ d, cs.getLast? = some d → d ≠ k ∧ ∃ n, nodes[d]? = some n ∧ n.nextSibling = none

/-- The chain `h` was lowered under node `k`, which had the children `cs`. -/
structure Lowered (nodes nodes' : List VntIrNode) (k : Nat) (payload : VntIrNode) (cs : List Nat)
    (role : VntIrEdgeRole) (h : Hir) : Prop where
  size : nodes'.length = nodes.length + h.size
  positions : positions h = List.range' nodes.length h.size
  parent : nodes'[k]? = some (payload.placed .root (cs ++ siblings h) none)
  spells : Spells nodes' role h none
  frame : ∀ j < nodes.length, j ≠ k → Relinks nodes nodes' cs (start h none) j

variable {k : Nat} {payload : VntIrNode} {cs : List Nat} {h h₁ h₂ : Hir}

theorem Opened.lt (ho : Opened nodes k payload cs) : k < nodes.length := (List.getElem?_eq_some_iff.mp ho.parent).1

theorem Lowered.nil (ho : Opened nodes k payload cs) : Lowered nodes nodes k payload cs role .nil where
  size := rfl
  positions := rfl
  parent := by
    rw [siblings, List.append_nil]
    exact ho.parent
  spells := trivial
  frame := by
    intro j _ _
    refine ⟨fun _ => rfl, fun hl => ?_⟩
    obtain ⟨-, n, hn, hnone⟩ := ho.last j hl
    rw [hn]
    show some n = some { n with nextSibling := none }
    rw [← hnone]

theorem Lowered.bounds (hl : Lowered nodes nodes' k payload cs role h) {j : Nat} (hj : j ∈ Arena.positions h) :
    nodes.length ≤ j ∧ j < nodes'.length := by
  rw [hl.positions, List.mem_range'_1] at hj
  rw [hl.size]
  exact hj

theorem Lowered.opened (ho : Opened nodes k payload cs) (hl : Lowered nodes nodes' k payload cs role h) :
    Opened nodes' k payload (cs ++ siblings h) where
  parent := hl.parent
  last := by
    intro d hd
    rcases List.eq_nil_or_concat (siblings h) with hnil | ⟨ds, d', hds⟩
    · rw [hnil, List.append_nil] at hd
      obtain ⟨hdk, n, hn, hnone⟩ := ho.last d hd
      have hre := (hl.frame d (List.getElem?_eq_some_iff.mp hn).1 hdk).last hd
      refine ⟨hdk, _, hre.trans (by rw [hn]; rfl), ?_⟩
      show start h none = none
      rw [start, hnil]
      rfl
    · have hd' : (siblings h).getLast? = some d := by
        rw [hds, List.concat_eq_append] at hd ⊢
        simpa using hd
      refine ⟨?_, hl.spells.last hd'⟩
      have := (hl.bounds (siblings_subset_positions h (List.mem_of_getLast? hd'))).1
      have := ho.lt
      omega

theorem getLast?_append_siblings (cs : List Nat) (hh : h ≠ .nil) :
    (cs ++ siblings h).getLast? = (siblings h).getLast? := by
  rw [List.getLast?_append, List.getLast?_eq_some_getLast (mt siblings_eq_nil.mp hh)]
  rfl

/-- The first of several chains under one parent, after the link behind it was set. -/
theorem Lowered.first (ho : Opened nodes k payload cs) {m : Option Nat}
    (hl₁ : Lowered nodes nodes₁ k payload cs role h₁)
    (hframe : ∀ j < nodes₁.length, j ≠ k → Relinks nodes₁ nodes₂ (cs ++ siblings h₁) m j) :
    Spells nodes₂ role h₁ m ∧ ∀ j < nodes.length, j ≠ k → Relinks nodes nodes₂ cs (start h₁ m) j := by
  have hk := ho.lt
  have hsize := hl₁.size
  by_cases hnil : h₁ = .nil
  · subst hnil
    refine ⟨trivial, fun j hj hjk => ?_⟩
    have hre₁ := hl₁.frame j hj hjk
    have hre₂ := hframe j (by omega) hjk
    rw [siblings, List.append_nil] at hre₂
    refine ⟨fun hlast => (hre₂.other hlast).trans (hre₁.other hlast), fun hlast => ?_⟩
    rw [hre₂.last hlast, hre₁.last hlast, Option.map_map]
    rfl
  · have hlast := getLast?_append_siblings cs hnil
    constructor
    · refine hl₁.spells.relink ?_ fun j hj => ?_
      · rw [hl₁.positions]
        exact List.nodup_range'
      · obtain ⟨hlow, hhigh⟩ := hl₁.bounds hj
        have hre := hframe j hhigh (by omega)
        exact ⟨fun hne => hre.other (by rwa [hlast]), fun heq => hre.last (by rwa [hlast])⟩
    · intro j hj hjk
      have hre₂ := hframe j (by omega) hjk
      -- the last child is one of `h₁` now
      have hsame : nodes₂[j]? = nodes₁[j]? := by
        refine hre₂.other fun heq => ?_
        rw [hlast] at heq
        have := (hl₁.bounds (siblings_subset_positions h₁ (List.mem_of_getLast? heq))).1
        omega
      have hstart : start h₁ m = start h₁ none := by
        obtain ⟨a, l, hl⟩ := List.exists_cons_of_ne_nil (mt siblings_eq_nil.mp hnil)
        simp only [start, hl]
        rfl
      have hre₁ := hl₁.frame j hj hjk
      rw [hstart]
      exact ⟨fun hne => hsame.trans (hre₁.other hne), fun heq => hsame.trans (hre₁.last heq)⟩

/-- Two chains of one role. -/
theorem Lowered.append (ho : Opened nodes k payload cs) (hl₁ : Lowered nodes nodes₁ k payload cs role h₁)
    (hl₂ : Lowered nodes₁ nodes₂ k payload (cs ++ siblings h₁) role h₂) :
    Lowered nodes nodes₂ k payload cs role (h₁.append h₂) := by
  obtain ⟨hspells, hframe⟩ := hl₁.first ho hl₂.frame
  refine ⟨?_, ?_, ?_, hspells.append hl₂.spells, ?_⟩
  · rw [hl₂.size, hl₁.size, size_append, Nat.add_assoc]
  · rw [positions_append, size_append, hl₁.positions, hl₂.positions, hl₁.size, List.range'_append_1]
  · rw [siblings_append, ← List.append_assoc]
    exact hl₂.parent
  · rw [start_append]
    exact hframe

/-! ## One node -/

theorem openNode_eq (nodes : List VntIrNode) (payload : VntIrNode) : openNode nodes payload = nodes ++ [payload] := by
  simp [openNode, reserveNode]

theorem opened_openNode {payload : VntIrNode} (hp : payload.placed .root [] none = payload) :
    Opened (openNode nodes payload) nodes.length payload [] where
  parent := by rw [openNode_eq, List.getElem?_concat_length, hp]
  last := fun d hd => by cases hd

theorem length_openNode (nodes : List VntIrNode) (payload : VntIrNode) :
    (openNode nodes payload).length = nodes.length + 1 := by
  rw [openNode_eq, List.length_append]
  rfl

/-- Below a fresh node nothing in front of it changes. -/
theorem frame_openNode {payload : VntIrNode} {m : Option Nat} (hframe : ∀ j < (openNode nodes payload).length,
    j ≠ nodes.length → Relinks (openNode nodes payload) nodes' [] m j) : ∀ j < nodes.length, nodes'[j]? = nodes[j]? := by
  intro j hj
  have hre := hframe j (by rw [length_openNode]; omega) (by omega)
  rw [hre.other (by simp), openNode_eq, List.getElem?_append_left hj]

theorem placed_concat {c : Nat} (hcs : cs ≠ []) : payload.placed role (cs ++ [c]) none =
    { payload.placed role cs none with
      lastChild := some c, childCount := (payload.placed role cs none).childCount + 1 } := by
  obtain ⟨a, l, rfl⟩ := List.exists_cons_of_ne_nil hcs
  simp [VntIrNode.placed, List.getLast?_cons]

/-- `add_child` of a finished child behind the others. -/
theorem linkChild_opened (ho : Opened nodes k payload cs) {q : VntIrNode} {ds : List Nat}
    (hc : nodes₁[nodes.length]? = some (q.placed .root ds none)) (hbefore : ∀ j < nodes.length, nodes₁[j]? = nodes[j]?) :
    ∃ nodes₂, linkChild role k nodes.length nodes₁ = .ok (some nodes₂) ∧ nodes₂.length = nodes₁.length ∧
      nodes₂[k]? = some (payload.placed .root (cs ++ [nodes.length]) none) ∧
      nodes₂[nodes.length]? = some (q.placed role ds none) ∧ (∀ j, nodes.length < j → nodes₂[j]? = nodes₁[j]?) ∧
      ∀ j < nodes.length, j ≠ k → Relinks nodes nodes₂ cs (some nodes.length) j := by
  have hk := ho.lt
  have hclt : nodes.length < nodes₁.length := (List.getElem?_eq_some_iff.mp hc).1
  generalize hc₀ : nodes.length = c at *
  let mid := nodes₁.set c (q.placed role ds none)
  have hlen : mid.length = nodes₁.length := List.length_set
  have hmid : ∀ j, j ≠ c → mid[j]? = nodes₁[j]? := fun j hj => getElem?_set_ne' (Ne.symm hj)
  have hmidc : mid[c]? = some (q.placed role ds none) := getElem?_set_self' hc
  have hmidk : mid[k]? = some (payload.placed .root cs none) := by
    rw [hmid k (by omega), hbefore k (by omega), ho.parent]
  have hrun : linkChild role k c nodes₁ = addChild mid k c := by
    rw [linkChild, access_eq_ok.mpr hc]
    rfl
  have hguard : ¬ (k ≥ mid.length ∨ c ≥ mid.length) := by omega
  rw [hrun, addChild, if_neg hguard, access_eq_ok.mpr hmidk]
  cases hlast : cs.getLast? with
  | none =>
      obtain rfl : cs = [] := List.getLast?_eq_none_iff.mp hlast
      have hset := @getElem?_set_self' mid k _
        { payload.placed .root [] none with firstChild := some c } hmidk
      refine ⟨(mid.set k { payload.placed .root [] none with firstChild := some c }).set k
        (payload.placed .root [c] none), ?_, ?_, ?_, ?_, fun j hj => ?_, fun j hj hjk => ?_⟩
      · show (access (mid.set k _) k >>= _) = _
        rw [access_eq_ok.mpr hset]
        rfl
      · rw [List.length_set, List.length_set, hlen]
      · exact getElem?_set_self' hset
      · rw [getElem?_set_ne' (by omega), getElem?_set_ne' (by omega), hmidc]
      · rw [getElem?_set_ne' (by omega), getElem?_set_ne' (by omega), hmid j (by omega)]
      · refine ⟨fun _ => ?_, fun hd => by cases hd⟩
        rw [getElem?_set_ne' (Ne.symm hjk), getElem?_set_ne' (Ne.symm hjk), hmid j (by omega), hbefore j (by omega)]
  | some d =>
      obtain ⟨hdk, n, hn, hnone⟩ := ho.last d hlast
      have hd : d < c := hc₀ ▸ (List.getElem?_eq_some_iff.mp hn).1
      have hmidd : mid[d]? = some n := by rw [hmid d (by omega), hbefore d hd, hn]
      have hsetk : (mid.set d { n with nextSibling := some c })[k]? = some (payload.placed .root cs none) := by
        rw [getElem?_set_ne' hdk, hmidk]
      refine ⟨(mid.set d { n with nextSibling := some c }).set k (payload.placed .root (cs ++ [c]) none), ?_, ?_, ?_, ?_,
        fun j hj => ?_, fun j hj hjk => ?_⟩
      · have hlast' : (payload.placed .root cs none).lastChild = some d := hlast
        simp only [bind, Except.bind, hlast', access_eq_ok.mpr hmidd, pure, Except.pure, access_eq_ok.mpr hsetk]
        rw [placed_concat (List.ne_nil_of_mem (List.mem_of_getLast? hlast))]
      · rw [List.length_set, List.length_set, hlen]
      · exact getElem?_set_self' hsetk
      · rw [getElem?_set_ne' (by omega), getElem?_set_ne' (by omega), hmidc]
      · rw [getElem?_set_ne' (by omega), getElem?_set_ne' (by omega), hmid j (by omega)]
      · refine ⟨fun hne => ?_, fun heq => ?_⟩
        · have hdj : d ≠ j := fun h => hne (by rw [hlast, h])
          rw [getElem?_set_ne' (Ne.symm hjk), getElem?_set_ne' hdj, hmid j (by omega), hbefore j (by omega)]
        · obtain rfl : d = j := Option.some.inj (hlast.symm.trans heq)
          rw [getElem?_set_ne' (Ne.symm hjk), getElem?_set_self' hmidd, hn]
          rfl

/-- A finished node, as a chain of its own: `h` holds it and what is below it. -/
theorem linkChild_lowered (ho : Opened nodes k payload cs) {q : VntIrNode} {ds : List Nat}
    (hc : nodes₁[nodes.length]? = some (q.placed .root ds none)) (hbefore : ∀ j < nodes.length, nodes₁[j]? = nodes[j]?)
    (hsize : nodes₁.length = nodes.length + h.size) (hpos : positions h = List.range' nodes.length h.size)
    (hsib : siblings h = [nodes.length])
    (hspells : ∀ nodes₂ : List VntIrNode, nodes₂[nodes.length]? = some (q.placed role ds none) →
      (∀ j, nodes.length < j → nodes₂[j]? = nodes₁[j]?) → Spells nodes₂ role h none) :
    ∃ nodes₂, linkChild role k nodes.length nodes₁ = .ok (some nodes₂) ∧
      Lowered nodes nodes₂ k payload cs role h := by
  obtain ⟨nodes₂, hrun, hlen, hpar, hnode, hbehind, hframe⟩ := @linkChild_opened nodes nodes₁ role k payload cs ho q ds hc hbefore
  refine ⟨nodes₂, hrun, hlen.trans hsize, hpos, ?_, hspells nodes₂ hnode hbehind, ?_⟩
  · rw [hsib]
    exact hpar
  · rw [start, hsib]
    exact hframe

/-- What is below a fresh node stands behind it. -/
theorem Lowered.behind_openNode {p : VntIrNode} (hl : Lowered (openNode nodes p) nodes' k payload cs role h)
    {j : Nat} (hj : j ∈ Arena.positions h) : nodes.length < j := by
  have hlow := (hl.bounds hj).1
  rwa [length_openNode] at hlow

theorem size_number (h : Hir) : ∀ k, (h.number k).size = h.size := by
  induction h <;> simp_all [Hir.size]

theorem andThen_ok {α β : Type} {run : Run (Option α)} {a : α} (h : run = .ok (some a))
    (next : α → Run (Option β)) : andThen run next = next a := by
  rw [h]
  rfl

theorem number_append (h h' : Hir) : ∀ k, (h.append h').number k = (h.number k).append (h'.number (k + h.size)) := by
  induction h <;> simp_all [Hir.append, Hir.size, Nat.add_assoc, Nat.add_comm]

/-! ## Whole trees -/

/-- The chain a child pointer is lowered to. -/
def lowerChain (list : Bool) (ast : AstNode) : Hir := if list then lowerList ast else (lowerList ast).head

/-- Lowering a child pointer of an opened node writes its chain. -/
def Writes (list : Bool) (ast : AstNode) : Prop :=
  ∀ (nodes : List VntIrNode) (role : VntIrEdgeRole) (k : Nat) (payload : VntIrNode) (cs : List Nat),
    Opened nodes k payload cs → ∃ nodes', lowerInto list role k ast nodes = .ok (some nodes') ∧
      Lowered nodes nodes' k payload cs role ((lowerChain list ast).number nodes.length)

/-- A node that has been linked, and the rest of its list. -/
theorem lowered_rest (list : Bool) {next : AstNode} (hnext : Writes true next) (ho : Opened nodes k payload cs)
    (hl : Lowered nodes nodes₁ k payload cs role (h.number nodes.length)) :
    ∃ nodes', (if list then lowerInto true role k next nodes₁ else pure (some nodes₁)) = .ok (some nodes') ∧
      Lowered nodes nodes' k payload cs role
        ((h.append (if list then lowerList next else .nil)).number nodes.length) := by
  rw [number_append]
  cases list with
  | false => exact ⟨nodes₁, rfl, hl.append ho (Lowered.nil (hl.opened ho))⟩
  | true =>
      obtain ⟨nodes', hrun, hl'⟩ := hnext nodes₁ role k payload _ (hl.opened ho)
      have hsize := hl.size
      rw [size_number] at hsize
      rw [hsize] at hl'
      exact ⟨nodes', hrun, hl.append ho hl'⟩

theorem leafPayload_lowerLeaf (kind : AstLeaf) : leafPayload (lowerLeaf kind) = leafNode kind := by
  cases kind <;> rfl

theorem onePayload_lowerOpcode (kind : AstOne) : onePayload (lowerOpcode kind) = oneNode kind := by
  cases kind with
  | variableDeclaration name t b => cases b <;> rfl
  | _ => rfl

theorem oneRole_lowerOpcode (kind : AstOne) : oneRole (lowerOpcode kind) = AstOne.childRole kind := by
  cases kind with
  | variableDeclaration name t b => cases b <;> rfl
  | _ => rfl

theorem lowerChain_two (list : Bool) (kind : AstTwo) (a b next : AstNode) : lowerChain list (.two kind a b next) =
    (Hir.two 0 (lowerTwo kind) (lowerChain false a) (lowerChain (AstTwo.secondIsList kind) b) .nil).append
      (if list then lowerList next else .nil) := by
  cases kind <;> cases list <;> rfl

/-- `lower_list` and `lower_one` never fail, and write the chain they are given. -/
theorem writes (ast : AstNode) : ∀ list, Writes list ast := by
  induction ast with
  | null =>
      intro list nodes role k payload cs ho
      refine ⟨nodes, rfl, ?_⟩
      cases list <;> exact Lowered.nil ho
  | leaf kind next ih =>
      intro list nodes role k payload cs ho
      have hfresh : (leafNode kind).placed .root [] none = leafNode kind := by
        cases kind <;> rfl
      obtain ⟨nodes₁, hlink, hl⟩ : ∃ nodes₁,
          linkChild role k nodes.length (openNode nodes (leafNode kind)) = .ok (some nodes₁) ∧
          Lowered nodes nodes₁ k payload cs role ((Hir.leaf 0 (lowerLeaf kind) .nil).number nodes.length) := by
        refine linkChild_lowered ho (opened_openNode hfresh).parent ?_ ?_ rfl rfl ?_
        · intro j hj
          rw [openNode_eq, List.getElem?_append_left hj]
        · exact length_openNode nodes _
        · intro nodes₂ hnode _
          exact ⟨by rw [leafPayload_lowerLeaf]; exact hnode, trivial⟩
      obtain ⟨nodes', hrest, hl'⟩ := lowered_rest list (ih true) ho hl
      refine ⟨nodes', ?_, ?_⟩
      · rw [lowerInto, andThen_ok hlink]
        exact hrest
      · cases list <;> exact hl'
  | one kind child next ihc ih =>
      intro list nodes role k payload cs ho
      have hfresh : (oneNode kind).placed .root [] none = oneNode kind := by
        cases kind <;> rfl
      have hopen := @opened_openNode nodes _ hfresh
      obtain ⟨nodes₁, hrun₁, hl₁⟩ := ihc kind.isList _ (AstOne.childRole kind) nodes.length _ [] hopen
      have hsize₁ := hl₁.size
      rw [length_openNode, size_number] at hsize₁
      obtain ⟨nodes₂, hlink, hl⟩ : ∃ nodes₂, linkChild role k nodes.length nodes₁ = .ok (some nodes₂) ∧
          Lowered nodes nodes₂ k payload cs role
            ((Hir.one 0 (lowerOpcode kind) (lowerChain kind.isList child) .nil).number nodes.length) := by
        refine linkChild_lowered ho hl₁.parent (frame_openNode hl₁.frame) ?_ ?_ rfl ?_
        · rw [hsize₁, size_number, Hir.size, Hir.size]
          omega
        · rw [positions_number, size_number]
        · intro nodes₂ hnode hbehind
          have hspells := hl₁.spells.frame fun j hj => hbehind j (hl₁.behind_openNode hj)
          rw [length_openNode] at hnode hspells
          refine ⟨?_, ?_, trivial⟩
          · rw [onePayload_lowerOpcode]
            exact hnode
          · rw [oneRole_lowerOpcode]
            exact hspells
      obtain ⟨nodes', hrest, hl'⟩ := lowered_rest list (ih true) ho hl
      refine ⟨nodes', ?_, ?_⟩
      · rw [lowerInto, andThen_ok hrun₁, andThen_ok hlink]
        exact hrest
      · cases list <;> exact hl'
  | two kind a b next iha ihb ih =>
      intro list nodes role k payload cs ho
      have hfresh : (twoNode kind).placed .root [] none = twoNode kind := by
        cases kind <;> rfl
      have hopen := @opened_openNode nodes _ hfresh
      obtain ⟨nodes₁, hrun₁, hl₁⟩ := iha false _ (AstTwo.firstRole kind) nodes.length _ [] hopen
      obtain ⟨nodes₂, hrun₂, hl₂⟩ := ihb (AstTwo.secondIsList kind) _ (AstTwo.secondRole kind) nodes.length _ _
        (hl₁.opened hopen)
      obtain ⟨hspells₁, hframe⟩ := hl₁.first hopen hl₂.frame
      have hsize₁ := hl₁.size
      have hsize₂ := hl₂.size
      rw [length_openNode, size_number] at hsize₁
      rw [size_number] at hsize₂
      obtain ⟨nodes₃, hlink, hl⟩ : ∃ nodes₃, linkChild role k nodes.length nodes₂ = .ok (some nodes₃) ∧
          Lowered nodes nodes₃ k payload cs role ((Hir.two 0 (lowerTwo kind) (lowerChain false a)
            (lowerChain (AstTwo.secondIsList kind) b) .nil).number nodes.length) := by
        refine linkChild_lowered ho hl₂.parent (frame_openNode hframe) ?_ ?_ rfl ?_
        · rw [hsize₂, hsize₁, size_number, Hir.size, Hir.size]
          omega
        · rw [positions_number, size_number]
        · intro nodes₃ hnode hbehind
          have ha := hspells₁.frame fun j hj => hbehind j (hl₁.behind_openNode hj)
          have hb := hl₂.spells.frame fun j hj => hbehind j (by have := (hl₂.bounds hj).1; omega)
          rw [length_openNode] at hnode ha
          rw [hsize₁] at hnode ha hb
          refine ⟨?_, ?_, ?_, trivial⟩
          · cases kind <;> exact hnode
          · cases kind <;> exact ha
          · cases kind <;> exact hb
      obtain ⟨nodes', hrest, hl'⟩ := lowered_rest list (ih true) ho hl
      refine ⟨nodes', ?_, ?_⟩
      · rw [lowerInto, andThen_ok hrun₁, andThen_ok hrun₂, andThen_ok hlink]
        exact hrest
      · rw [lowerChain_two]
        exact hl'
  | ifStatement c t e next ihc iht ihe ih =>
      intro list nodes role k payload cs ho
      have hopen := @opened_openNode nodes (plainNode .if) rfl
      obtain ⟨nodes₁, hrun₁, hl₁⟩ := ihc false _ .condition nodes.length _ [] hopen
      obtain ⟨nodes₂, hrun₂, hl₂⟩ := iht true _ .then nodes.length _ _ (hl₁.opened hopen)
      obtain ⟨nodes₃, hrun₃, hl₃⟩ := ihe true _ .else nodes.length _ _ (hl₂.opened (hl₁.opened hopen))
      -- the links between the three chains, the last one first
      obtain ⟨hspells₂, hframe₂⟩ := hl₂.first (hl₁.opened hopen) hl₃.frame
      obtain ⟨hspells₁, hframe₁⟩ := hl₁.first hopen hframe₂
      have hsize₁ := hl₁.size
      have hsize₂ := hl₂.size
      have hsize₃ := hl₃.size
      rw [length_openNode, size_number] at hsize₁
      rw [size_number] at hsize₂ hsize₃
      obtain ⟨nodes₄, hlink, hl⟩ : ∃ nodes₄, linkChild role k nodes.length nodes₃ = .ok (some nodes₄) ∧
          Lowered nodes nodes₄ k payload cs role
            ((Hir.ifNode 0 (lowerChain false c) (lowerChain true t) (lowerChain true e) .nil).number nodes.length) := by
        have hparent := hl₃.parent
        rw [List.nil_append, List.append_assoc] at hparent
        refine linkChild_lowered ho hparent (frame_openNode hframe₁) ?_ ?_ rfl ?_
        · rw [hsize₃, hsize₂, hsize₁, size_number, Hir.size, Hir.size]
          omega
        · rw [positions_number, size_number]
        · intro nodes₄ hnode hbehind
          have hc := hspells₁.frame fun j hj => hbehind j (hl₁.behind_openNode hj)
          have ht := hspells₂.frame fun j hj => hbehind j (by have := (hl₂.bounds hj).1; omega)
          have he := hl₃.spells.frame fun j hj => hbehind j (by have := (hl₃.bounds hj).1; omega)
          rw [length_openNode] at hnode hc
          rw [hsize₂, hsize₁] at hnode hc ht he
          exact ⟨hnode, hc, ht, he, trivial⟩
      obtain ⟨nodes', hrest, hl'⟩ := lowered_rest list (ih true) ho hl
      refine ⟨nodes', ?_, ?_⟩
      · rw [lowerInto, andThen_ok hrun₁, andThen_ok hrun₂, andThen_ok hrun₃, andThen_ok hlink]
        exact hrest
      · cases list <;> exact hl'

/-- **The lowered program**: the array spells the tree, position by position. -/
theorem lowerProgram_spells (statements : AstNode) : ∃ nodes, lowerProgram statements [] = .ok (some (nodes, 0)) ∧
    Spells nodes .root ((Hir.one 0 .program (lowerList statements) .nil).number 0) none ∧
    nodes.length = (lowerList statements).size + 1 := by
  have hopen := @opened_openNode [] (oneNode .program) rfl
  obtain ⟨nodes, hrun, hl⟩ := writes statements true _ .statement 0 _ _ hopen
  refine ⟨nodes, ?_, ⟨hl.parent, hl.spells, trivial⟩, ?_⟩
  · exact andThen_ok hrun _
  · rw [hl.size, length_openNode, size_number, Nat.add_comm]
    rfl

end Vnt.Arena
