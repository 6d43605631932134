import Vnt.Arena.WellFormed

/-!
# `Arena.Exact` — `vnt_ir_validate` accepts exactly the well-formed arrays

Each loop gets three facts: it ends within the array whatever the links are, what its success says, and when it
succeeds. The first loop is read through the list `done` of all children met so far, which the parent counts
count.
-/

namespace Vnt.Arena

open Lib

variable {nodes : List VntIrNode}

/-! ## The children of one node -/

/-- `parents` counts the occurrences in `done` of every node of the array. -/
def Counts (n : Nat) (parents done : List Nat) : Prop :=
  parents.length = n ∧ ∀ c < n, parents[c]? = some (done.count c)

theorem Counts.zero (n : Nat) : Counts n (List.replicate n 0) [] := by
  refine ⟨List.length_replicate, fun c hc => ?_⟩
  rw [List.getElem?_replicate, if_pos hc, List.count_nil]

theorem Counts.set {n c : Nat} {parents done : List Nat} (h : Counts n parents done) :
    Counts n (parents.set c (done.count c + 1)) (done ++ [c]) := by
  refine ⟨by rw [List.length_set, h.1], fun d hd => ?_⟩
  rw [List.getElem?_set, List.count_append, List.count_singleton]
  by_cases hcd : c = d
  · subst hcd
    rw [if_pos rfl, if_pos (h.1 ▸ hd)]
    simp
  · rw [if_neg hcd, h.2 d hd]
    simp [hcd]

theorem getLast?_cons_or (c : Nat) (cs : List Nat) (last : Option Nat) :
    (c :: cs).getLast?.or last = cs.getLast?.or (some c) := by
  rw [List.getLast?_cons]
  cases cs.getLast? <;> rfl

/-- One round of the loop, past its tests. -/
theorem countChildren_step {i fuel child seen : Nat} {parents : List Nat} {last : Option Nat} {n : VntIrNode}
    (hn : nodes[child]? = some n) (hi : child ≠ i) (hseen : seen < nodes.length) (hp : parents[child]? = some 0) :
    countChildren nodes i (fuel + 1) parents (some child) seen last =
      countChildren nodes i fuel (parents.set child 1) n.nextSibling (seen + 1) (some child) := by
  have hlt := (List.getElem?_eq_some_iff.mp hn).1
  rw [countChildren, if_neg (by omega)]
  simp only [access_eq_ok.mpr hp, access_eq_ok.mpr hn, bind, Except.bind]
  rfl

theorem countChildren_total {i : Nat} : ∀ {fuel seen : Nat} {parents : List Nat} {child last : Option Nat},
    seen ≤ nodes.length → nodes.length < fuel + seen → parents.length = nodes.length →
      ∃ r, countChildren nodes i fuel parents child seen last = .ok r := by
  intro fuel
  induction fuel with
  | zero =>
      intro seen parents child last hs hf hp
      omega
  | succ fuel ih =>
      intro seen parents child last hs hf hp
      cases child with
      | none => exact ⟨_, rfl⟩
      | some child =>
          rw [countChildren]
          split
          · exact ⟨_, rfl⟩
          · rename_i hok
            simp only [not_or, Nat.not_le, not_lt] at hok
            have hparent := List.getElem?_eq_getElem (hp ▸ hok.1 : child < parents.length)
            have hnode := List.getElem?_eq_getElem hok.1
            simp only [access_eq_ok.mpr hparent, access_eq_ok.mpr hnode, bind, Except.bind]
            split
            · exact ⟨_, rfl⟩
            · exact ih (by omega) (by omega) (by rw [List.length_set, hp])

theorem countChildren_sound {i : Nat} : ∀ {fuel seen seen' : Nat} {parents parents' done : List Nat}
    {child last last' : Option Nat}, Counts nodes.length parents done →
    countChildren nodes i fuel parents child seen last = .ok (some (parents', seen', last')) →
      ∃ cs, Chain nodes child cs ∧ i ∉ cs ∧ Counts nodes.length parents' (done ++ cs) ∧
        seen' = seen + cs.length ∧ last' = cs.getLast?.or last ∧ (done.Nodup → (done ++ cs).Nodup) := by
  intro fuel
  induction fuel with
  | zero =>
      intro seen seen' parents parents' done child last last' hc h
      cases child with
      | none =>
          cases h
          exact ⟨[], rfl, by simp, by simpa using hc, rfl, rfl, by simp⟩
      | some child => cases h
  | succ fuel ih =>
      intro seen seen' parents parents' done child last last' hc h
      cases child with
      | none =>
          cases h
          exact ⟨[], rfl, by simp, by simpa using hc, rfl, rfl, by simp⟩
      | some child =>
          rw [countChildren] at h
          split at h
          · cases h
          · rename_i hok
            simp only [not_or, Nat.not_le, not_lt] at hok
            have hcount := hc.2 child hok.1
            have hnode := List.getElem?_eq_getElem hok.1
            simp only [access_eq_ok.mpr hcount, access_eq_ok.mpr hnode, bind, Except.bind] at h
            split at h
            · cases h
            · rename_i hfresh
              obtain ⟨cs, hchain, hi, hc', hseen, hlast, hnd⟩ := ih hc.set h
              refine ⟨child :: cs, ⟨rfl, _, hnode, hchain⟩, ?_, ?_, ?_, ?_, ?_⟩
              · rw [List.mem_cons, not_or]
                exact ⟨Ne.symm hok.2.1, hi⟩
              · simpa using hc'
              · rw [hseen, List.length_cons]
                omega
              · rw [hlast, getLast?_cons_or]
              · intro hdone
                have hnew : child ∉ done := List.count_eq_zero.mp (by omega)
                have happ : (done ++ [child]).Nodup := by
                  rw [List.nodup_append]
                  refine ⟨hdone, List.nodup_singleton _, ?_⟩
                  rintro a ha b hb rfl
                  rw [List.mem_singleton.mp hb] at ha
                  exact hnew ha
                simpa using hnd happ

theorem countChildren_complete {i : Nat} {cs : List Nat} : ∀ {fuel seen : Nat} {parents done : List Nat}
    {child last : Option Nat}, Counts nodes.length parents done → Chain nodes child cs → i ∉ cs →
      (done ++ cs).Nodup → seen + cs.length ≤ nodes.length → cs.length ≤ fuel →
      ∃ parents', countChildren nodes i fuel parents child seen last =
        .ok (some (parents', seen + cs.length, cs.getLast?.or last)) := by
  induction cs with
  | nil =>
      intro fuel seen parents done child last _ hchain _ _ _ _
      cases hchain
      exact ⟨parents, by cases fuel <;> rfl⟩
  | cons c cs ih =>
      intro fuel seen parents done child last hc hchain hi hnd hseen hf
      obtain ⟨rfl, n, hn, hrest⟩ := hchain
      rw [List.mem_cons, not_or] at hi
      have hfresh : done.count c = 0 := by
        rw [List.count_eq_zero]
        intro hmem
        rw [List.nodup_append] at hnd
        exact hnd.2.2 c hmem c List.mem_cons_self rfl
      have hparent : parents[c]? = some 0 := by
        rw [hc.2 c (List.getElem?_eq_some_iff.mp hn).1, hfresh]
      cases fuel with
      | zero => exact absurd hf (by simp)
      | succ fuel =>
          have hset : Counts nodes.length (parents.set c 1) (done ++ [c]) := by
            have := hc.set (c := c)
            rwa [hfresh] at this
          simp only [List.length_cons] at hseen hf
          obtain ⟨parents', hrun⟩ : ∃ parents', countChildren nodes i fuel (parents.set c 1) n.nextSibling
              (seen + 1) (some c) = .ok (some (parents', seen + 1 + cs.length, cs.getLast?.or (some c))) :=
            ih hset hrest hi.2 (by simpa using hnd) (by omega) (by omega)
          refine ⟨parents', ?_⟩
          rw [countChildren_step hn (Ne.symm hi.1) (by omega) hparent, hrun, getLast?_cons_or, List.length_cons,
            Nat.add_assoc seen 1, Nat.add_comm 1]

/-! ## One node -/

theorem lastHasSibling_chain {l : Option Nat} {cs : List Nat} (h : Chain nodes l cs) :
    lastHasSibling nodes cs.getLast? = .ok false := by
  induction cs generalizing l with
  | nil => rfl
  | cons c cs ih =>
      obtain ⟨-, n, hn, hcs⟩ := h
      cases cs with
      | nil =>
          show (access nodes c >>= fun n => pure n.nextSibling.isSome) = .ok false
          rw [access_eq_ok.mpr hn]
          show Except.ok n.nextSibling.isSome = .ok false
          rw [(hcs : n.nextSibling = none)]
          rfl
      | cons d cs =>
          rw [List.getLast?_cons_cons]
          exact ih hcs

theorem Chain.none_iff {l : Option Nat} {cs : List Nat} (h : Chain nodes l cs) : l = none ↔ cs.length = 0 := by
  cases cs with
  | nil =>
      cases h
      simp
  | cons c cs =>
      obtain ⟨rfl, -⟩ := h
      simp

/-- Node `i` has passed the tests of its round: `cs` are its children. -/
structure Passed (nodes : List VntIrNode) (i : Nat) (node : VntIrNode) (cs : List Nat) : Prop where
  at_i : nodes[i]? = some node
  role : node.role ≠ none
  chain : Chain nodes node.firstChild cs
  notSelf : i ∉ cs
  fits : NodeFits nodes node cs

/-- The run of one round: it rejects, or the node has passed and its children have no parent yet. -/
theorem validateNode_cases {fuel i : Nat} {parents done : List Nat} (hf : nodes.length < fuel)
    (hi : i < nodes.length) (hc : Counts nodes.length parents done) (hd : done.Nodup) :
    validateNode fuel nodes i parents = .ok none ∨
      ∃ parents' node cs, validateNode fuel nodes i parents = .ok (some parents') ∧ Passed nodes i node cs ∧
        Counts nodes.length parents' (done ++ cs) ∧ (done ++ cs).Nodup := by
  have hnode := List.getElem?_eq_getElem hi
  generalize nodes[i] = node at hnode
  obtain ⟨b, hb, -⟩ := rejectsNames_eq node
  obtain ⟨r, hr⟩ : ∃ r, countChildren nodes i fuel parents node.firstChild 0 none = .ok r :=
    countChildren_total (Nat.zero_le _) hf hc.1
  simp only [validateNode, access_eq_ok.mpr hnode, hb, hr, bind, Except.bind, pure, Except.pure]
  split
  · exact .inl rfl
  rename_i hpayload
  split
  · exact .inl rfl
  rename_i hnames
  split
  · exact .inl rfl
  rename_i parents' seen last
  obtain ⟨cs, hchain, hself, hc', hseen, hlast, hnd⟩ := countChildren_sound hc hr
  have hcs : cs.Nodup := (List.nodup_append.mp (hnd hd)).2.1
  have hshort : cs.length ≤ fuel := (hchain.length_le hcs).trans (Nat.le_of_lt hf)
  split
  · exact .inl rfl
  rename_i heq
  rw [Option.or_none] at hlast
  simp only [not_or, ne_eq, Decidable.not_not, Nat.zero_add] at heq hseen
  have hcount : node.childCount = cs.length := heq.1.symm.trans hseen
  have hlastChild : node.lastChild = cs.getLast? := heq.2.symm.trans hlast
  rw [hlastChild, lastHasSibling_chain hchain]
  dsimp only
  -- What is left is the shape of the node; its opcode is known by now.
  have hpayload' : rejectsPayload node = false := by simpa using hpayload
  have hnames' : b = false := by simpa using hnames
  obtain ⟨role, hrole⟩ : ∃ role, node.role = some role := by
    rw [← Option.ne_none_iff_exists']
    intro hnone
    unfold rejectsPayload at hpayload'
    exact (decide_eq_false_iff_not.mp hpayload') (.inr (.inl hnone))
  have hfirst : node.firstChild = none ↔ node.childCount = 0 := by rw [hcount]; exact hchain.none_iff
  obtain ⟨op, hop, hfit⟩ := (payloadFits_iff hrole hfirst).mp ⟨hpayload', hnames' ▸ hb⟩
  obtain ⟨shape, hshape, hiff⟩ := validateNodeShape_chain hop hchain hshort hcount
  rw [hshape]
  cases shape with
  | false => exact .inl rfl
  | true =>
      refine .inr ⟨parents', node, cs, rfl, ⟨hnode, ?_, hchain, hself, ?_⟩, hc', hnd hd⟩
      · rw [hrole]
        exact Option.some_ne_none role
      · exact ⟨hcount, hlastChild, op, hop, hfit, hiff.mp rfl⟩

/-- A node that passes, with children that have no parent yet, is not rejected. -/
theorem validateNode_complete {fuel i : Nat} {parents done cs : List Nat} {node : VntIrNode} (hf : nodes.length < fuel)
    (hc : Counts nodes.length parents done) (hp : Passed nodes i node cs) (hnd : (done ++ cs).Nodup) :
    ∃ parents', validateNode fuel nodes i parents = .ok (some parents') := by
  have hcs : cs.Nodup := (List.nodup_append.mp hnd).2.1
  have hlen := hp.chain.length_le hcs
  obtain ⟨parents', hrun⟩ : ∃ parents', countChildren nodes i fuel parents node.firstChild 0 none =
      .ok (some (parents', 0 + cs.length, cs.getLast?.or none)) :=
    countChildren_complete hc hp.chain hp.notSelf hnd (by omega) (by omega)
  obtain ⟨role, hrole⟩ := Option.ne_none_iff_exists'.mp hp.role
  obtain ⟨op, hop, hfit, hshape⟩ := hp.fits.opcode
  have hfirst : node.firstChild = none ↔ node.childCount = 0 := by rw [hp.fits.childCount]; exact hp.chain.none_iff
  obtain ⟨hpayload, hnames⟩ := (payloadFits_iff hrole hfirst).mpr ⟨op, hop, hfit⟩
  obtain ⟨b, hb, hiff⟩ := validateNodeShape_chain hop hp.chain (by omega : cs.length ≤ fuel) hp.fits.childCount
  obtain rfl : b = true := hiff.mpr hshape
  refine ⟨parents', ?_⟩
  simp only [validateNode, access_eq_ok.mpr hp.at_i, hpayload, hnames, hrun, bind, Except.bind, pure, Except.pure,
    hp.fits.childCount, hp.fits.lastChild, lastHasSibling_chain hp.chain, hb]
  simp

/-! ## All nodes -/

/-- The children of node `i`. -/
def kids (nodes : List VntIrNode) (i : Nat) : List Nat :=
  match nodes[i]? with
  | some n => chainList VntIrNode.nextSibling nodes nodes.length n.firstChild
  | none => []

theorem Passed.kids_eq {i : Nat} {node : VntIrNode} {cs : List Nat} (h : Passed nodes i node cs)
    (hnd : cs.Nodup) : kids nodes i = cs := by
  unfold kids
  rw [h.at_i]
  exact h.chain.chainList_eq (h.chain.length_le hnd)

/-- The first loop rejects, or every node of it has passed and no node has two parents. -/
theorem validateNodes_cases {fuel : Nat} (hf : nodes.length < fuel) : ∀ {is parents done : List Nat},
    (∀ i ∈ is, i < nodes.length) → Counts nodes.length parents done → done.Nodup →
      validateNodes fuel nodes is parents = .ok none ∨
        ∃ parents', validateNodes fuel nodes is parents = .ok (some parents') ∧
          (∀ i ∈ is, ∃ node, Passed nodes i node (kids nodes i)) ∧
          Counts nodes.length parents' (done ++ is.flatMap (kids nodes)) ∧ (done ++ is.flatMap (kids nodes)).Nodup := by
  intro is
  induction is with
  | nil =>
      intro parents done _ hc hd
      exact .inr ⟨parents, rfl, by simp, by simpa using hc, by simpa using hd⟩
  | cons i is ih =>
      intro parents done hlt hc hd
      rw [validateNodes]
      rcases validateNode_cases hf (hlt i List.mem_cons_self) hc hd with h | ⟨parents₁, node, cs, h, hp, hc₁, hd₁⟩
      · rw [h]
        exact .inl rfl
      · rw [h]
        have hkids := hp.kids_eq (List.nodup_append.mp hd₁).2.1
        rw [← hkids] at hp hc₁ hd₁
        rcases ih (fun j hj => hlt j (List.mem_cons_of_mem _ hj)) hc₁ hd₁ with h' | ⟨parents₂, h', hps, hc₂, hd₂⟩
        · exact .inl h'
        · refine .inr ⟨parents₂, h', ?_, ?_, ?_⟩
          · intro j hj
            rcases List.mem_cons.mp hj with rfl | hj
            · exact ⟨node, hp⟩
            · exact hps j hj
          · simpa using hc₂
          · simpa using hd₂

theorem validateNodes_complete {fuel : Nat} (hf : nodes.length < fuel) : ∀ {is parents done : List Nat},
    Counts nodes.length parents done → (∀ i ∈ is, ∃ node, Passed nodes i node (kids nodes i)) →
      (done ++ is.flatMap (kids nodes)).Nodup →
      ∃ parents', validateNodes fuel nodes is parents = .ok (some parents') := by
  intro is
  induction is with
  | nil =>
      intro parents done _ _ _
      exact ⟨parents, rfl⟩
  | cons i is ih =>
      intro parents done hc hps hnd
      obtain ⟨node, hp⟩ := hps i List.mem_cons_self
      rw [List.flatMap_cons, ← List.append_assoc] at hnd
      have hleft := (List.nodup_append.mp hnd).1
      have hi := (List.getElem?_eq_some_iff.mp hp.at_i).1
      obtain ⟨parents', h⟩ := validateNode_complete hf hc hp hleft
      rw [validateNodes, h]
      rcases validateNode_cases hf hi hc (List.nodup_append.mp hleft).1 with h' | ⟨_, node', cs, h', hp', hc', -⟩
      · rw [h] at h'
        cases h'
      · obtain rfl : node = node' := Option.some.inj (hp.at_i.symm.trans hp'.at_i)
        obtain rfl : kids nodes i = cs := hp.chain.unique hp'.chain
        obtain rfl : parents' = _ := Option.some.inj (Except.ok.inj (h.symm.trans h'))
        exact ih hc' (fun j hj => hps j (List.mem_cons_of_mem _ hj)) hnd

/-! ## The walk -/

theorem pushChildren_chain {visited : List Bool} (hv : visited.length = nodes.length) {cs : List Nat} :
    ∀ {fuel : Nat} {l : Option Nat} {stack : List Nat}, Chain nodes l cs → cs.length ≤ fuel →
      (pushChildren nodes visited fuel l stack = .ok none ∨
        pushChildren nodes visited fuel l stack = .ok (some (cs.reverse ++ stack)) ∧
          ∀ c ∈ cs, visited[c]? = some false) ∧
      ((∀ c ∈ cs, visited[c]? = some false) → stack.length + cs.length ≤ nodes.length →
        pushChildren nodes visited fuel l stack = .ok (some (cs.reverse ++ stack))) := by
  induction cs with
  | nil =>
      intro fuel l stack h _
      cases h
      have hrun : pushChildren nodes visited fuel none stack = .ok (some stack) := by cases fuel <;> rfl
      exact ⟨.inr ⟨hrun, by simp⟩, fun _ _ => hrun⟩
  | cons c cs ih =>
      intro fuel l stack h hf
      obtain ⟨rfl, n, hn, hcs⟩ := h
      have hlt := (List.getElem?_eq_some_iff.mp hn).1
      have hvisit := List.getElem?_eq_getElem (hv ▸ hlt : c < visited.length)
      generalize visited[c] = seen at hvisit
      cases fuel with
      | zero => exact absurd hf (by simp)
      | succ fuel =>
          have hrest := @ih fuel _ (c :: stack) hcs (Nat.le_of_succ_le_succ hf)
          rw [List.reverse_cons, List.append_assoc, List.singleton_append, pushChildren, if_neg (by omega)]
          simp only [access_eq_ok.mpr hvisit, access_eq_ok.mpr hn, bind, Except.bind, pure, Except.pure,
            List.forall_mem_cons]
          cases seen with
          | true => exact ⟨.inl rfl, fun hall => by simp [hvisit] at hall⟩
          | false =>
              simp only [hvisit, true_and, if_false, Bool.false_eq_true]
              split
              · refine ⟨.inl rfl, fun _ hlen => ?_⟩
                simp only [List.length_cons] at hlen
                omega
              · refine ⟨hrest.1, fun hall hlen => hrest.2 hall ?_⟩
                simp only [List.length_cons] at hlen ⊢
                omega

/-- Every node has a finite list of children. -/
def Listed (fuel : Nat) (nodes : List VntIrNode) : Prop :=
  ∀ i < nodes.length, ∃ node cs, nodes[i]? = some node ∧ Chain nodes node.firstChild cs ∧ cs.length ≤ fuel

/-- One round of the walk: it stops, or it visits a new node and goes on with its children on top. -/
theorem walk_cases {fuel : Nat} {visited : List Bool} (hl : Listed fuel nodes)
    (hv : visited.length = nodes.length) (steps current : Nat) (stack : List Nat) (reached : Nat) :
    (∃ r, walk fuel nodes (steps + 1) visited (current :: stack) reached = .ok (false, r)) ∨
      ∃ node cs, nodes[current]? = some node ∧ Chain nodes node.firstChild cs ∧ visited[current]? = some false ∧
        (∀ c ∈ cs, (visited.set current true)[c]? = some false) ∧
        walk fuel nodes (steps + 1) visited (current :: stack) reached =
          walk fuel nodes steps (visited.set current true) (cs.reverse ++ stack) (reached + 1) := by
  rw [walk]
  split
  · exact .inl ⟨_, rfl⟩
  rename_i hlt
  rw [Nat.not_le] at hlt
  obtain ⟨node, cs, hnode, hchain, hlen⟩ := hl current hlt
  have hvisit := List.getElem?_eq_getElem (hv ▸ hlt : current < visited.length)
  generalize visited[current] = seen at hvisit
  simp only [access_eq_ok.mpr hvisit, access_eq_ok.mpr hnode, bind, Except.bind, pure, Except.pure]
  cases seen with
  | true => exact .inl ⟨_, rfl⟩
  | false =>
      simp only [if_false, Bool.false_eq_true]
      have hset : (visited.set current true).length = nodes.length := by rw [List.length_set, hv]
      rcases (@pushChildren_chain nodes _ hset cs fuel _ stack hchain hlen).1 with h | ⟨h, hfresh⟩
      · rw [h]
        exact .inl ⟨_, rfl⟩
      · rw [h]
        exact .inr ⟨node, cs, hnode, hchain, hvisit, hfresh, rfl⟩

theorem count_false_set {visited : List Bool} {i : Nat} (h : visited[i]? = some false) :
    (visited.set i true).count false + 1 = visited.count false := by
  induction visited generalizing i with
  | nil => cases h
  | cons b visited ih =>
      cases i with
      | zero =>
          obtain rfl : b = false := by simpa using h
          simp
      | succ i =>
          rw [List.set_cons_succ, List.count_cons, List.count_cons, ← ih (by simpa using h)]
          omega

theorem walk_total {fuel : Nat} (hl : Listed fuel nodes) : ∀ {steps : Nat} {visited : List Bool} {stack : List Nat}
    {reached : Nat}, visited.length = nodes.length → visited.count false < steps →
      ∃ r, walk fuel nodes steps visited stack reached = .ok r := by
  intro steps
  induction steps with
  | zero =>
      intro visited stack reached _ hlt
      omega
  | succ steps ih =>
      intro visited stack reached hv hlt
      cases stack with
      | nil => exact ⟨_, rfl⟩
      | cons current stack =>
          rcases walk_cases hl hv steps current stack reached with
            ⟨r, h⟩ | ⟨node, cs, -, -, hfresh, -, h⟩
          · exact ⟨_, h⟩
          · rw [h]
            have hcount := count_false_set hfresh
            exact ih (by rw [List.length_set, hv]) (by omega)

/-- A walk that ends has met a tree below every node of the stack, and no node twice. -/
theorem walk_sound {fuel : Nat} (hl : Listed fuel nodes) : ∀ {steps : Nat} {visited : List Bool} {stack : List Nat}
    {reached r : Nat}, visited.length = nodes.length →
      walk fuel nodes steps visited stack reached = .ok (true, r) →
      ∃ ts : List (Nat × Forest), ts.map Prod.fst = stack ∧
        (∀ t ∈ ts, Subtree VntIrNode.firstChild VntIrNode.nextSibling nodes t.1 t.2) ∧
        (Forest.treeIndices ts).Nodup ∧ (∀ i ∈ Forest.treeIndices ts, visited[i]? = some false) ∧
        r = reached + (Forest.treeIndices ts).length := by
  intro steps
  induction steps with
  | zero =>
      intro visited stack reached r hv h
      cases stack with
      | nil =>
          cases h
          exact ⟨[], rfl, by simp, List.nodup_nil, by simp [Forest.treeIndices], rfl⟩
      | cons current stack => cases h
  | succ steps ih =>
      intro visited stack reached r hv h
      cases stack with
      | nil =>
          cases h
          exact ⟨[], rfl, by simp, List.nodup_nil, by simp [Forest.treeIndices], rfl⟩
      | cons current stack =>
          rcases walk_cases hl hv steps current stack reached with
            ⟨r', h'⟩ | ⟨node, cs, hnode, hchain, hfresh, -, h'⟩
          · rw [h'] at h
            cases h
          rw [h'] at h
          obtain ⟨ts, hts, hsub, hnd, hunseen, rfl⟩ := ih (by rw [List.length_set, hv]) h
          obtain ⟨below, rest, rfl, hbelow, hrest⟩ := List.map_eq_append_iff.mp hts
          rw [Forest.treeIndices_append] at hnd hunseen
          -- The trees on top of the stack, in the order of the chain, are the children of `current`.
          have hperm : (Forest.treeIndices below.reverse).Perm (Forest.treeIndices below) :=
            Forest.treeIndices_reverse below
          have hlinked : Linked nodes node.firstChild (Forest.ofTrees below.reverse) := by
            refine Chain.linked ?_ fun t ht => hsub t (List.mem_append_left _ (List.mem_reverse.mp ht))
            rw [List.map_reverse, hbelow, List.reverse_reverse]
            exact hchain
          have hperm' : (Forest.treeIndices ((current, Forest.ofTrees below.reverse) :: rest)).Perm
              (current :: (Forest.treeIndices below ++ Forest.treeIndices rest)) := by
            rw [Forest.treeIndices_cons, Forest.indices_ofTrees]
            exact (hperm.append_right _).cons _
          have hcurrent : current ∉ Forest.treeIndices below ++ Forest.treeIndices rest := by
            intro hmem
            have hseen := hunseen current hmem
            rw [List.getElem?_set, if_pos rfl] at hseen
            split at hseen <;> simp at hseen
          refine ⟨(current, Forest.ofTrees below.reverse) :: rest, ?_, ?_, ?_, ?_, ?_⟩
          · rw [List.map_cons, hrest]
          · intro t ht
            rcases List.mem_cons.mp ht with rfl | ht
            · exact ⟨node, hnode, hlinked⟩
            · exact hsub t (List.mem_append_right _ ht)
          · rw [hperm'.nodup_iff, List.nodup_cons]
            exact ⟨hcurrent, hnd⟩
          · intro i hi
            rcases List.mem_cons.mp (hperm'.mem_iff.mp hi) with rfl | hi
            · exact hfresh
            · have hne : current ≠ i := by
                rintro rfl
                exact hcurrent hi
              have hold := hunseen i hi
              rwa [List.getElem?_set, if_neg hne] at hold
          · rw [hperm'.length_eq, List.length_cons, Forest.treeIndices_append]
            omega

/-- Trees below the stack without a common node, none of them visited: the walk visits them all. -/
theorem walk_complete {fuel : Nat} (hl : Listed fuel nodes) : ∀ {steps : Nat} {visited : List Bool}
    {ts : List (Nat × Forest)} {reached : Nat}, visited.length = nodes.length →
      (∀ t ∈ ts, Subtree VntIrNode.firstChild VntIrNode.nextSibling nodes t.1 t.2) →
      (Forest.treeIndices ts).Nodup → (∀ i ∈ Forest.treeIndices ts, visited[i]? = some false) →
      (Forest.treeIndices ts).length < steps →
      walk fuel nodes steps visited (ts.map Prod.fst) reached =
        .ok (true, reached + (Forest.treeIndices ts).length) := by
  intro steps
  induction steps with
  | zero =>
      intro visited ts reached _ _ _ _ hlt
      omega
  | succ steps ih =>
      intro visited ts reached hv hsub hnd hunseen hlt
      cases ts with
      | nil => rfl
      | cons t ts =>
          obtain ⟨current, ch⟩ := t
          obtain ⟨node, hnode, hch⟩ := hsub (current, ch) List.mem_cons_self
          have hcurrent := (List.getElem?_eq_some_iff.mp hnode).1
          have hperm : (Forest.treeIndices (ch.trees.reverse ++ ts)).Perm (ch.indices ++ Forest.treeIndices ts) := by
            rw [Forest.treeIndices_append, ← Forest.treeIndices_trees ch]
            exact (Forest.treeIndices_reverse _).append_right _
          rw [Forest.treeIndices_cons] at hnd hunseen hlt
          have hnew : current ∉ ch.indices ++ Forest.treeIndices ts := (List.nodup_cons.mp hnd).1
          have hset : (visited.set current true).length = nodes.length := by rw [List.length_set, hv]
          have hunseen' : ∀ i ∈ ch.indices ++ Forest.treeIndices ts, (visited.set current true)[i]? = some false := by
            intro i hi
            have hne : current ≠ i := by
              rintro rfl
              exact hnew hi
            rw [List.getElem?_set, if_neg hne]
            exact hunseen i (List.mem_cons_of_mem _ hi)
          have hlen : ch.roots.length ≤ fuel := by
            obtain ⟨node', cs, hnode', hchain, hle⟩ := hl current hcurrent
            obtain rfl : node = node' := Option.some.inj (hnode.symm.trans hnode')
            rwa [hch.chain.unique hchain]
          -- The stack holds distinct nodes other than `current`, so there is room.
          have hroom : (ts.map Prod.fst).length + ch.roots.length ≤ nodes.length := by
            have hdistinct : (ch.roots ++ ts.map Prod.fst).Sublist (ch.indices ++ Forest.treeIndices ts) :=
              (Forest.roots_sublist_indices ch).append (Forest.map_fst_sublist ts)
            have hle : (ch.roots ++ ts.map Prod.fst).length ≤ nodes.length := by
              refine length_le_of_lt ((List.nodup_cons.mp hnd).2.sublist hdistinct) fun i hi => ?_
              rw [← hset]
              exact (List.getElem?_eq_some_iff.mp (hunseen' i (hdistinct.subset hi))).1
            rw [List.length_append] at hle
            omega
          have hpush := (@pushChildren_chain nodes _ hset ch.roots fuel _ (ts.map Prod.fst) hch.chain hlen).2
            (fun c hc => hunseen' c (List.mem_append_left _ (Forest.mem_indices_of_mem_roots hc))) hroom
          have hrest : walk fuel nodes steps (visited.set current true) ((ch.trees.reverse ++ ts).map Prod.fst)
              (reached + 1) = .ok (true, reached + 1 + (Forest.treeIndices (ch.trees.reverse ++ ts)).length) := by
            refine ih hset ?_ (hperm.nodup_iff.mpr (List.nodup_cons.mp hnd).2)
              (fun i hi => hunseen' i (hperm.mem_iff.mp hi)) ?_
            · intro t ht
              rcases List.mem_append.mp ht with ht | ht
              · exact hch.subtree t (List.mem_reverse.mp ht)
              · exact hsub t (List.mem_cons_of_mem _ ht)
            · rw [hperm.length_eq]
              simp only [List.length_cons] at hlt
              omega
          rw [List.map_cons, walk, if_neg (by omega)]
          simp only [access_eq_ok.mpr (hunseen current List.mem_cons_self), access_eq_ok.mpr hnode, hpush, bind,
            Except.bind, pure, Except.pure, if_false, Bool.false_eq_true]
          rw [List.map_append, List.map_reverse, Forest.map_fst_trees] at hrest
          rw [hrest, hperm.length_eq, Forest.treeIndices_cons, List.length_cons]
          congr 2
          dsimp only
          omega

/-! ## The whole function -/

section WellFormed

variable {root : Nat} {ch : Forest} (hlinked : Linked nodes (some root) (.node root ch .nil))
  (hperm : (Forest.node root ch .nil).indices.Perm (List.range nodes.length))
  (hroot : ∃ node, nodes[root]? = some node ∧ node.role = some .root) (hfits : Fits nodes (.node root ch .nil))

include hlinked hperm hroot hfits

/-- In a well-formed array the round of every node passes, with the children it has in the tree. -/
theorem passed_of_fits : ∀ p ∈ (Forest.node root ch .nil).families, ∃ node, Passed nodes p.1 node p.2 := by
  have hnd : (Forest.node root ch .nil).indices.Nodup := hperm.nodup_iff.mpr List.nodup_range
  intro p hp
  obtain ⟨node, hnode, hfit⟩ := hfits p hp
  obtain ⟨node', hnode', hchain⟩ := hlinked.families p hp
  obtain rfl : node = node' := Option.some.inj (hnode.symm.trans hnode')
  refine ⟨node, hnode, ?_, hchain, (Forest.families_nodup hnd p hp).1, hfit⟩
  -- The root has its role, and every other node has the role its parent asks for.
  have hmem : p.1 ∈ (Forest.node root ch .nil).indices := by
    rw [← Forest.families_fst]
    exact List.mem_map_of_mem hp
  rcases List.mem_append.mp ((Forest.families_perm _).mem_iff.mpr hmem) with h | h
  · obtain rfl : p.1 = root := by simpa using h
    obtain ⟨node', hnode', hrole⟩ := hroot
    obtain rfl : node = node' := Option.some.inj (hnode.symm.trans hnode')
    rw [hrole]
    exact Option.some_ne_none _
  · obtain ⟨q, hq, hpq⟩ := List.mem_flatMap.mp h
    obtain ⟨parent, -, hfit'⟩ := hfits q hq
    obtain ⟨op, -, -, hshape⟩ := hfit'.opcode
    intro hnone
    refine hshape.role_ne_none (List.mem_map.mpr ⟨p.1, hpq, ?_⟩)
    rw [hnode]
    exact hnone

theorem kids_of_fits : ∀ p ∈ (Forest.node root ch .nil).families, kids nodes p.1 = p.2 := by
  have hnd : (Forest.node root ch .nil).indices.Nodup := hperm.nodup_iff.mpr List.nodup_range
  intro p hp
  obtain ⟨node, hpass⟩ := passed_of_fits hlinked hperm hroot hfits p hp
  exact hpass.kids_eq (Forest.families_nodup hnd p hp).2

theorem passed_all : ∀ i ∈ List.range nodes.length, ∃ node, Passed nodes i node (kids nodes i) := by
  intro i hi
  rw [← hperm.mem_iff, ← Forest.families_fst] at hi
  obtain ⟨p, hp, rfl⟩ := List.mem_map.mp hi
  rw [kids_of_fits hlinked hperm hroot hfits p hp]
  exact passed_of_fits hlinked hperm hroot hfits p hp

/-- Every node but the root is the child of exactly one node. -/
theorem kids_perm : (root :: (List.range nodes.length).flatMap (kids nodes)).Perm (List.range nodes.length) := by
  have hkids : (Forest.node root ch .nil).indices.flatMap (kids nodes) =
      (Forest.node root ch .nil).families.flatMap Prod.snd := by
    rw [← Forest.families_fst, List.flatMap_map]
    exact List.flatMap_congr fun p hp => kids_of_fits hlinked hperm hroot hfits p hp
  have hall := Forest.families_perm (Forest.node root ch .nil)
  rw [← hkids] at hall
  exact (((hperm.symm.flatMap_right _).cons root).trans hall).trans hperm

end WellFormed

theorem listed_of_passed {fuel : Nat} (hf : nodes.length < fuel)
    (h : ∀ i ∈ List.range nodes.length, ∃ node, Passed nodes i node (kids nodes i))
    (hnd : ((List.range nodes.length).flatMap (kids nodes)).Nodup) : Listed fuel nodes := by
  intro i hi
  obtain ⟨node, hp⟩ := h i (List.mem_range.mpr hi)
  have hkids : (kids nodes i).Nodup := (List.nodup_flatMap.mp hnd).1 i (List.mem_range.mpr hi)
  exact ⟨node, _, hp.at_i, hp.chain, (hp.chain.length_le hkids).trans (Nat.le_of_lt hf)⟩

/-- Both loops have passed. -/
theorem wellFormed_of_walk {fuel steps root : Nat} {node : VntIrNode} (hl : Listed fuel nodes)
    (h : ∀ i ∈ List.range nodes.length, ∃ node, Passed nodes i node (kids nodes i))
    (hnode : nodes[root]? = some node) (hop : node.opcode = some .program) (hrole : node.role = some .root)
    (hsib : node.nextSibling = none)
    (hwalk : walk fuel nodes steps (List.replicate nodes.length false) [root] 0 = .ok (true, nodes.length)) :
    WellFormed ⟨nodes, root⟩ := by
  obtain ⟨ts, hts, hsub, hnd, hin, hlen⟩ := walk_sound hl List.length_replicate hwalk
  obtain ⟨⟨i, ch⟩, rfl, rfl⟩ := List.map_eq_singleton_iff.mp hts
  obtain ⟨node', hnode', hch⟩ := hsub (i, ch) List.mem_cons_self
  obtain rfl : node = node' := Option.some.inj (hnode.symm.trans hnode')
  have hlinked : Linked nodes (some i) (.node i ch .nil) := ⟨rfl, node, hnode, hch, hsib⟩
  have hindices : Forest.treeIndices [(i, ch)] = (Forest.node i ch .nil).indices := by
    simp [Forest.treeIndices]
  rw [hindices] at hnd hlen
  refine ⟨ch, hlinked, ?_, ⟨node, hnode, hop, hrole⟩, ?_⟩
  · have hsubset : (Forest.node i ch .nil).indices ⊆ List.range nodes.length :=
      fun j hj => List.mem_range.mpr (hlinked.lt j hj)
    refine (List.subperm_of_subset hnd hsubset).perm_of_length_le ?_
    rw [List.length_range]
    omega
  · intro p hp
    obtain ⟨n, hn, hchain⟩ := hlinked.families p hp
    obtain ⟨n', hp'⟩ := h p.1 (List.mem_range.mpr (List.getElem?_eq_some_iff.mp hn).1)
    obtain rfl : n = n' := Option.some.inj (hn.symm.trans hp'.at_i)
    refine ⟨n, hn, ?_⟩
    have hfits := hp'.fits
    rwa [hp'.chain.unique hchain] at hfits

/-- The test on the parent counts, between the two loops. -/
theorem parents_of_kids {root : Nat} {parents : List Nat}
    (hc : Counts nodes.length parents ((List.range nodes.length).flatMap (kids nodes)))
    (hperm : (root :: (List.range nodes.length).flatMap (kids nodes)).Perm (List.range nodes.length)) :
    ∀ i < nodes.length, parents[i]? = some (if i = root then 0 else 1) := by
  intro i hi
  have hone : (root :: (List.range nodes.length).flatMap (kids nodes)).count i = 1 := by
    rw [hperm.count_eq]
    exact List.count_eq_one_of_mem List.nodup_range (List.mem_range.mpr hi)
  rw [hc.2 i hi]
  rw [List.count_cons] at hone
  by_cases h : i = root
  · subst h
    simp only [beq_self_eq_true, if_true] at hone ⊢
    congr 1
    omega
  · simp only [beq_iff_eq, Ne.symm h, if_false, Nat.add_zero] at hone
    rw [if_neg h, hone]

theorem vntIrValidate_fuel (ir : VntIrProgram) (fuel : Nat) (hf : ir.nodes.length < fuel) :
    ∃ b, vntIrValidate fuel ir = .ok b ∧ (b = true ↔ WellFormed ir) := by
  obtain ⟨nodes, root⟩ := ir
  dsimp only at hf
  by_cases hlt : root < nodes.length
  swap
  · refine ⟨false, ?_, by simp, ?_⟩
    · rw [vntIrValidate, if_pos (Nat.le_of_not_lt hlt)]
      rfl
    · rintro ⟨ch, hlinked, -⟩
      exact absurd (hlinked.lt root (by simp)) hlt
  have hnode := List.getElem?_eq_getElem hlt
  generalize nodes[root] = node at hnode
  by_cases hhead : node.opcode = some .program ∧ node.role = some .root ∧ node.nextSibling = none
  swap
  · refine ⟨false, ?_, by simp, ?_⟩
    · rw [vntIrValidate, if_neg (Nat.not_le.mpr hlt)]
      simp only [access_eq_ok.mpr hnode, bind, Except.bind, pure, Except.pure]
      split
      · rfl
      split
      · rfl
      rename_i hop hrole
      simp only [ne_eq, Decidable.not_not, not_or] at hop hrole
      exact absurd ⟨hop, hrole⟩ hhead
    · rintro ⟨ch, ⟨-, node', hnode', -, hsib⟩, -, ⟨node'', hnode'', hop, hrole⟩, -⟩
      obtain rfl : node = node' := Option.some.inj (hnode.symm.trans hnode')
      obtain rfl : node = node'' := Option.some.inj (hnode.symm.trans hnode'')
      exact absurd ⟨hop, hrole, hsib⟩ hhead
  obtain ⟨hop, hrole, hsib⟩ := hhead
  have hrange : ∀ i ∈ List.range nodes.length, i < nodes.length := fun i hi => List.mem_range.mp hi
  have hrun : vntIrValidate fuel ⟨nodes, root⟩ =
      (validateNodes fuel nodes (List.range nodes.length) (List.replicate nodes.length 0) >>= fun r =>
        r.elim (pure false) fun parents =>
          if (List.range nodes.length).all fun i => parents[i]? = some (if i = root then 0 else 1) then do
            let w ← walk fuel nodes fuel (List.replicate nodes.length false) [root] 0
            pure (w.1 && w.2 == nodes.length)
          else pure false) := by
    rw [vntIrValidate, if_neg (Nat.not_le.mpr hlt)]
    simp only [access_eq_ok.mpr hnode, hop, hrole, hsib, bind, Except.bind, pure, Except.pure, ne_eq, not_true,
      if_false, or_self]
    rcases validateNodes fuel nodes (List.range nodes.length) (List.replicate nodes.length 0) with e | _ | parents <;> rfl
  rw [hrun]
  have hwf : WellFormed ⟨nodes, root⟩ →
      (∀ i ∈ List.range nodes.length, ∃ node, Passed nodes i node (kids nodes i)) ∧
      (root :: (List.range nodes.length).flatMap (kids nodes)).Perm (List.range nodes.length) := by
    rintro ⟨ch, hlinked, hperm, -, hfits⟩
    exact ⟨passed_all hlinked hperm ⟨node, hnode, hrole⟩ hfits, kids_perm hlinked hperm ⟨node, hnode, hrole⟩ hfits⟩
  rcases validateNodes_cases hf hrange (Counts.zero nodes.length) List.nodup_nil with
    hrej | ⟨parents, hacc, hpass, hc, hnd⟩
  · rw [hrej]
    refine ⟨false, rfl, by simp, fun h => ?_⟩
    obtain ⟨hpass, hperm⟩ := hwf h
    have hnd := (List.nodup_cons.mp (hperm.nodup_iff.mpr List.nodup_range)).2
    obtain ⟨parents, hacc⟩ := validateNodes_complete hf (Counts.zero nodes.length) hpass (by simpa using hnd)
    rw [hrej] at hacc
    cases hacc
  rw [List.nil_append] at hc hnd
  rw [hacc]
  by_cases hvalid : ∀ i < nodes.length, parents[i]? = some (if i = root then 0 else 1)
  swap
  · refine ⟨false, ?_, by simp, fun h => absurd (parents_of_kids hc (hwf h).2) hvalid⟩
    show (if _ then _ else _) = _
    rw [if_neg]
    · rfl
    · simpa using hvalid
  have hl := listed_of_passed hf hpass hnd
  have hcount : (List.replicate nodes.length false).count false < fuel := by
    rw [List.count_replicate_self]
    exact hf
  obtain ⟨⟨v, reached⟩, hwalk⟩ : ∃ r, walk fuel nodes fuel (List.replicate nodes.length false) [root] 0 = .ok r :=
    walk_total hl List.length_replicate hcount
  refine ⟨v && reached == nodes.length, ?_, ?_, ?_⟩
  · show (if _ then _ else _) = _
    rw [if_pos (by simpa using hvalid), hwalk]
    rfl
  · intro h
    obtain ⟨rfl, rfl⟩ : v = true ∧ reached = nodes.length := by simpa using h
    exact wellFormed_of_walk hl hpass hnode hop hrole hsib hwalk
  · rintro ⟨ch, hlinked, hperm, -, -⟩
    have hindices : Forest.treeIndices [(root, ch)] = (Forest.node root ch .nil).indices := by
      simp [Forest.treeIndices]
    obtain ⟨-, node', hnode', hch, -⟩ := hlinked
    have hcomplete : walk fuel nodes fuel (List.replicate nodes.length false) [root] 0 =
        .ok (true, 0 + (Forest.treeIndices [(root, ch)]).length) := by
      show walk fuel nodes fuel _ (([(root, ch)] : List (Nat × Forest)).map Prod.fst) 0 = _
      refine walk_complete hl List.length_replicate ?_ ?_ ?_ ?_
      · intro t ht
        rw [List.mem_singleton.mp ht]
        exact ⟨node', hnode', hch⟩
      · rw [hindices]
        exact hperm.nodup_iff.mpr List.nodup_range
      · intro i hi
        rw [hindices, hperm.mem_iff, List.mem_range] at hi
        rw [List.getElem?_replicate, if_pos hi]
      · rwa [hindices, hperm.length_eq, List.length_range]
    rw [hindices, hperm.length_eq, List.length_range, Nat.zero_add, hwalk] at hcomplete
    obtain ⟨rfl, rfl⟩ : v = true ∧ reached = nodes.length := by simpa using hcomplete
    simp

/-- `print(true)` as a `PROGRAM` at position 2 over a `PRINT` at position 0. -/
def printTrue : VntIrProgram where
  nodes := [
    ⟨some .print, some .statement, 0, none, 0, none, some 1, some 1, none, 1, .integer 0, null_names⟩,
    ⟨some .boolean, some .value, 0, none, 0, none, none, none, none, 0, .boolean true, null_names⟩,
    ⟨some .program, some .root, 0, none, 0, none, some 0, some 0, none, 1, .integer 0, null_names⟩]
  root := 2

end Vnt.Arena
