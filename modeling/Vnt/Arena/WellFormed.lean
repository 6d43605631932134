import Vnt.Arena.Node
import Vnt.Lib.Prog
import Mathlib.Tactic.Ring

/-!
# `Arena.WellFormed` — what `vnt_ir_validate` accepts

`WellFormed` says what the array is for: the links from the root spell one tree that holds every node once, every
node knows the number and the last of its children, and its children and its payload are those its opcode asks
for. The first loop of `vnt_ir_validate` gives each node a finite list of children, and the walk turns the lists
into a tree: each node it pops gets the trees of the nodes it pushes for it.
-/

namespace Vnt.Arena

open Lib

/-! ## Well-formed arrays -/

/-- The roles of a list of nodes. -/
def rolesOf (nodes : List VntIrNode) (cs : List Nat) : List (Option VntIrEdgeRole) :=
  cs.map fun c => (nodes[c]?).bind VntIrNode.role

/-- The roles the children of a node have, by its opcode. -/
def Shape (roles : List (Option VntIrEdgeRole)) : VntIrOpcode → Prop
  | .program => ∀ r ∈ roles, r = some .statement
  | .if => roles.count (some .condition) = 1 ∧
      ∀ r ∈ roles, r = some .condition ∨ r = some .then ∨ r = some .else
  | .while => roles.count (some .condition) = 1 ∧ ∀ r ∈ roles, r = some .condition ∨ r = some .body
  | .function => ∀ r ∈ roles, r = some .body
  | .call => ∀ r ∈ roles, r = some .argument
  | .array => ∀ r ∈ roles, r = some .element
  | .print | .return | .variableDecl => roles = [] ∨ roles = [some .value]
  | .reassign => roles = [some .value]
  | .index => roles = [some .object, some .index] ∨ roles = [some .index, some .object]
  | .member => roles = [some .object]
  | .assign => roles = [some .target, some .value] ∨ roles = [some .value, some .target]
  | .binary => roles = [some .left, some .right] ∨ roles = [some .right, some .left]
  | .unary => roles = [some .operand]
  | .struct | .break | .continue | .string | .integer | .float | .boolean | .null | .variable | .asm => roles = []

/-- The payload fields a node has, by its opcode. -/
structure PayloadFits (node : VntIrNode) (op : VntIrOpcode) : Prop where
  text : op.hasText = true → ∃ t, node.value = .text (some t)
  names : node.nameCount ≠ 0 → (op = .function ∨ op = .struct) ∧
    ∃ names, node.names = some names ∧ ∀ j < node.nameCount, ∃ s, names[j]? = some (some s)
  typeName : node.typeName ≠ none → op = .variableDecl ∨ op = .reassign
  binary : op = .binary → ∃ o, operator? binaryOperators node.operation = some o
  unary : op = .unary → ∃ o, operator? unaryOperators node.operation = some o

/-- A node with the children `cs` is as its opcode asks. -/
structure NodeFits (nodes : List VntIrNode) (node : VntIrNode) (cs : List Nat) : Prop where
  childCount : node.childCount = cs.length
  lastChild : node.lastChild = cs.getLast?
  opcode : ∃ op, node.opcode = some op ∧ PayloadFits node op ∧ Shape (rolesOf nodes cs) op

/-- Every node of the forest fits. -/
def Fits (nodes : List VntIrNode) (f : Forest) : Prop :=
  ∀ p ∈ f.families, ∃ node, nodes[p.1]? = some node ∧ NodeFits nodes node p.2

/-- One tree with every node of the array, each as its opcode asks, under a `PROGRAM` in the role `ROOT`. That the
    root has no sibling is part of the links. -/
def WellFormed (ir : VntIrProgram) : Prop :=
  ∃ children : Forest, Linked ir.nodes (some ir.root) (.node ir.root children .nil) ∧
    (Forest.node ir.root children .nil).indices.Perm (List.range ir.nodes.length) ∧
    (∃ root, ir.nodes[ir.root]? = some root ∧ root.opcode = some .program ∧ root.role = some .root) ∧
    Fits ir.nodes (.node ir.root children .nil)

/-! ## Shapes and counts -/

theorem Shape.role_ne_none {roles : List (Option VntIrEdgeRole)} {op : VntIrOpcode} (h : Shape roles op) :
    none ∉ roles := by
  intro hmem
  cases op <;> simp only [Shape] at h
  case program | function | call | array => cases h _ hmem
  case «if» => rcases h.2 _ hmem with h | h | h <;> cases h
  case «while» => rcases h.2 _ hmem with h | h <;> cases h
  case print | «return» | variableDecl | index | assign | binary => rcases h with rfl | rfl <;> simp at hmem
  all_goals
    rw [h] at hmem
    simp at hmem

theorem roleCount_chain {nodes : List VntIrNode} (role : VntIrEdgeRole) {cs : List Nat} {l : Option Nat}
    (h : Chain nodes l cs) {fuel : Nat} (hf : cs.length ≤ fuel) :
    roleCount nodes role fuel l = .ok ((rolesOf nodes cs).count (some role)) := by
  induction cs generalizing l fuel with
  | nil =>
      cases h
      cases fuel <;> rfl
  | cons c cs ih =>
      obtain ⟨rfl, n, hn, hcs⟩ := h
      cases fuel with
      | zero => exact absurd hf (by simp)
      | succ fuel =>
          have hrest := ih hcs (Nat.le_of_succ_le_succ hf)
          simp only [roleCount, access_eq_ok.mpr hn, hrest, bind, Except.bind, pure, Except.pure, rolesOf,
            List.map_cons, hn, Option.bind_some, List.count_cons, beq_iff_eq]
          split <;> rfl

theorem count_eq_zero_of_all {roles : List (Option VntIrEdgeRole)} {p : Option VntIrEdgeRole → Prop}
    (h : ∀ r ∈ roles, p r) {b : VntIrEdgeRole} (hb : ¬p (some b)) : roles.count (some b) = 0 :=
  List.count_eq_zero.mpr fun hmem => hb (h _ hmem)

theorem all_of_count_eq_length {roles : List (Option VntIrEdgeRole)} {a : VntIrEdgeRole}
    (h : roles.count (some a) = roles.length) : ∀ r ∈ roles, r = some a :=
  fun r hr => ((List.count_eq_length.mp h) r hr).symm

/-- The counts of two different roles make up the list exactly when it has no other. -/
theorem count_add_eq_length {roles : List (Option VntIrEdgeRole)} {a b : VntIrEdgeRole} (hab : a ≠ b) :
    roles.count (some a) + roles.count (some b) = roles.length ↔ ∀ r ∈ roles, r = some a ∨ r = some b := by
  have hsum : roles.count (some a) + roles.count (some b) =
      roles.countP fun r => decide (r = some a ∨ r = some b) := by
    induction roles with
    | nil => rfl
    | cons r roles ih =>
        rw [List.count_cons, List.count_cons, List.countP_cons, ← ih]
        by_cases ha : r = some a
        · subst ha
          simp [hab]
          omega
        · by_cases hb : r = some b
          · subst hb
            simp [Ne.symm hab]
            omega
          · simp [ha, hb]
  rw [hsum, List.countP_eq_length]
  simp

theorem count_branches {roles : List (Option VntIrEdgeRole)} :
    roles.count (some .then) + roles.count (some .else) + roles.count (some .condition) = roles.length ↔
      ∀ r ∈ roles, r = some .condition ∨ r = some .then ∨ r = some .else := by
  have hsum : roles.count (some .then) + roles.count (some .else) + roles.count (some .condition) =
      roles.countP fun r => decide (r = some .condition ∨ r = some .then ∨ r = some .else) := by
    induction roles with
    | nil => rfl
    | cons r roles ih =>
        rw [List.count_cons, List.count_cons, List.count_cons, List.countP_cons, ← ih]
        rcases r with - | r
        · simp
        · cases r <;> simp <;> omega
  rw [hsum, List.countP_eq_length]
  simp

/-- One of each of two different roles. -/
theorem count_pair {roles : List (Option VntIrEdgeRole)} {a b : VntIrEdgeRole} (hab : a ≠ b) :
    roles.count (some a) = 1 ∧ roles.count (some b) = 1 ∧ roles.length = 2 ↔
      roles = [some a, some b] ∨ roles = [some b, some a] := by
  constructor
  · rintro ⟨ha, hb, hlen⟩
    have hall := (count_add_eq_length hab).mp (by omega : _ = roles.length)
    obtain ⟨x, y, rfl⟩ := List.length_eq_two.mp hlen
    obtain hx | hx := hall x (by simp) <;> obtain hy | hy := hall y (by simp) <;> subst hx <;> subst hy
    · simp at ha
    · exact .inl rfl
    · exact .inr rfl
    · simp at hb
  · rintro (rfl | rfl) <;> simp [hab, Ne.symm hab]

theorem count_single {roles : List (Option VntIrEdgeRole)} {a : VntIrEdgeRole} :
    roles.count (some a) = 1 ∧ roles.length = 1 ↔ roles = [some a] := by
  constructor
  · rintro ⟨ha, hlen⟩
    have hall := all_of_count_eq_length (ha.trans hlen.symm)
    obtain ⟨x, rfl⟩ := List.length_eq_one_iff.mp hlen
    rw [hall x (by simp)]
  · rintro rfl
    simp

theorem count_at_most_one {roles : List (Option VntIrEdgeRole)} {a : VntIrEdgeRole} :
    roles.count (some a) = roles.length ∧ roles.count (some a) ≤ 1 ↔ roles = [] ∨ roles = [some a] := by
  constructor
  · rintro ⟨hall, hle⟩
    rcases Nat.lt_or_eq_of_le hle with h | h
    · exact .inl (List.length_eq_zero_iff.mp (by omega))
    · exact .inr (count_single.mp ⟨h, by omega⟩)
  · rintro (rfl | rfl) <;> simp

theorem count_all {roles : List (Option VntIrEdgeRole)} {a : VntIrEdgeRole} :
    roles.count (some a) = roles.length ↔ ∀ r ∈ roles, r = some a := by
  rw [List.count_eq_length]
  constructor
  · intro h r hr
    exact (h r hr).symm
  · intro h r hr
    exact (h r hr).symm

/-- `validate_node_shape` on a node that knows the number of its children. -/
theorem validateNodeShape_chain {nodes : List VntIrNode} {node : VntIrNode} {op : VntIrOpcode} {cs : List Nat}
    (hop : node.opcode = some op) (h : Chain nodes node.firstChild cs) {fuel : Nat} (hf : cs.length ≤ fuel)
    (hcount : node.childCount = cs.length) :
    ∃ b, validateNodeShape fuel nodes node = .ok b ∧ (b = true ↔ Shape (rolesOf nodes cs) op) := by
  have hlen : node.childCount = (rolesOf nodes cs).length := by rw [hcount, rolesOf, List.length_map]
  simp only [validateNodeShape, roleCount_chain _ h hf, bind, Except.bind, pure, Except.pure, hop, hlen]
  generalize rolesOf nodes cs = roles
  refine ⟨_, rfl, ?_⟩
  -- Where one role is all there is, the other counts are zero.
  cases op <;> simp only [decide_eq_true_eq, Shape]
  case program =>
    rw [count_all]
    refine ⟨fun hb => hb.1, fun hall => ⟨hall, ?_⟩⟩
    simp [count_eq_zero_of_all hall]
  case «if» =>
    rw [count_branches]
    refine ⟨fun hb => ⟨hb.1, hb.2.1⟩, fun hall => ⟨hall.1, hall.2, ?_⟩⟩
    simp [count_eq_zero_of_all hall.2]
  case «while» =>
    rw [count_add_eq_length (by decide)]
    refine ⟨fun hb => ⟨hb.1, fun r hr => (hb.2.1 r hr).symm⟩,
      fun hall => ⟨hall.1, fun r hr => (hall.2 r hr).symm, ?_⟩⟩
    simp [count_eq_zero_of_all hall.2]
  case function =>
    rw [count_all]
    refine ⟨fun hb => hb.1, fun hall => ⟨hall, ?_⟩⟩
    simp [count_eq_zero_of_all hall]
  case call => exact count_all
  case array => exact count_all
  case print => exact count_at_most_one
  case «return» => exact count_at_most_one
  case variableDecl => exact count_at_most_one
  case reassign => exact count_single
  case member => exact count_single
  case unary => exact count_single
  case index => exact count_pair (by decide)
  case assign => exact count_pair (by decide)
  case binary => exact count_pair (by decide)
  all_goals exact List.length_eq_zero_iff

/-! ## Payloads -/

theorem hasNullName_eq {names : List (Option String)} : ∀ {k : Nat}, k ≤ names.length →
    ∃ b, hasNullName names k = .ok b ∧ (b = true ↔ ∃ j < k, names[j]? = some none)
  | 0, _ => ⟨false, rfl, by simp⟩
  | k + 1, hk => by
      obtain ⟨b, hb, hiff⟩ := hasNullName_eq (Nat.le_of_succ_le hk)
      obtain ⟨name, hname⟩ : ∃ name, names[k]? = some name := ⟨_, List.getElem?_eq_getElem hk⟩
      refine ⟨b || name.isNone, ?_, ?_⟩
      · rw [hasNullName, hb]
        cases b
        · show (access names k >>= fun name => pure name.isNone) = _
          rw [access_eq_ok.mpr hname]
          rfl
        · rfl
      · rw [Bool.or_eq_true, hiff, Option.isNone_iff_eq_none]
        constructor
        · rintro (⟨j, hj, hn⟩ | rfl)
          · exact ⟨j, Nat.lt_succ_of_lt hj, hn⟩
          · exact ⟨k, Nat.lt_succ_self k, hname⟩
        · rintro ⟨j, hj, hn⟩
          rcases Nat.lt_succ_iff_lt_or_eq.mp hj with hj | rfl
          · exact .inl ⟨j, hj, hn⟩
          · exact .inr (Option.some.inj (hname.symm.trans hn))

theorem rejectsNames_eq (node : VntIrNode) : ∃ b, rejectsNames node = .ok b ∧
    (b = true ↔ ∃ names, node.names = some names ∧ ∃ j < node.nameCount, names[j]? = some none) := by
  unfold rejectsNames
  cases hn : node.names with
  | none => exact ⟨false, rfl, by simp⟩
  | some names =>
      obtain ⟨b, hb, hiff⟩ := hasNullName_eq (node.names_size names hn)
      exact ⟨b, hb, by simpa using hiff⟩

theorem operator_isSome {α : Type} {operators : List α} {operation : Int} :
    (∃ o, operator? operators operation = some o) ↔ 0 ≤ operation ∧ operation < operators.length := by
  unfold operator?
  split
  · constructor
    · rintro ⟨o, ho⟩
      cases ho
    · intro h
      omega
  · rw [← Option.ne_none_iff_exists', ne_eq, List.getElem?_eq_none_iff]
    omega

/-- The two payload tests together. -/
theorem payloadFits_iff {node : VntIrNode} {role : VntIrEdgeRole} (hrole : node.role = some role)
    (hfirst : node.firstChild = none ↔ node.childCount = 0) :
    rejectsPayload node = false ∧ rejectsNames node = .ok false ↔
      ∃ op, node.opcode = some op ∧ PayloadFits node op := by
  obtain ⟨b, hb, hnull⟩ := rejectsNames_eq node
  rw [hb, Except.ok.injEq]
  unfold rejectsPayload
  rw [decide_eq_false_iff_not]
  constructor
  · rintro ⟨hno, rfl⟩
    simp only [not_or] at hno
    obtain ⟨hop, -, hnames, htext, hwhere, htype, hbin, hun, -⟩ := hno
    obtain ⟨op, hop⟩ := Option.ne_none_iff_exists'.mp hop
    refine ⟨op, hop, ?_, ?_, ?_, ?_, ?_⟩
    · intro hhas
      have hsome : node.value.text? ≠ none := fun hv => htext ⟨⟨op, hop, hhas⟩, hv⟩
      cases hval : node.value with
      | text t =>
          cases t with
          | none => exact absurd (by rw [hval]; rfl) hsome
          | some t => exact ⟨t, rfl⟩
      | _ => exact absurd (by rw [hval]; rfl) hsome
    · intro hcount
      refine ⟨?_, ?_⟩
      · by_contra hne
        rw [not_or] at hne
        refine hwhere ⟨hcount, ?_, ?_⟩
        · rw [hop, ne_eq, Option.some.injEq]
          exact hne.1
        · rw [hop, ne_eq, Option.some.injEq]
          exact hne.2
      · obtain ⟨names, hn⟩ := Option.ne_none_iff_exists'.mp fun hn => hnames ⟨hcount, hn⟩
        refine ⟨names, hn, fun j hj => ?_⟩
        have hlt : j < names.length := Nat.lt_of_lt_of_le hj (node.names_size names hn)
        cases hname : names[j]? with
        | none => exact absurd (List.getElem?_eq_none_iff.mp hname) (by omega)
        | some name =>
            cases name with
            | none => exact absurd (hnull.mpr ⟨names, hn, j, hj, hname⟩) (by simp)
            | some s => exact ⟨s, rfl⟩
    · intro ht
      by_contra hne
      rw [not_or] at hne
      refine htype ⟨ht, ?_, ?_⟩
      · rw [hop, ne_eq, Option.some.injEq]
        exact hne.1
      · rw [hop, ne_eq, Option.some.injEq]
        exact hne.2
    · rintro rfl
      rw [operator_isSome]
      have : (binaryOperators.length : Int) = 13 := rfl
      by_contra hout
      exact hbin ⟨hop, by omega⟩
    · rintro rfl
      rw [operator_isSome]
      have : (unaryOperators.length : Int) = 4 := rfl
      by_contra hout
      exact hun ⟨hop, by omega⟩
  · rintro ⟨op, hop, hfit⟩
    constructor
    · rintro (h | h | ⟨hcount, hn⟩ | ⟨⟨op', hop', hhas⟩, ht⟩ | ⟨hcount, hf, hs⟩ | ⟨ht, hv, hr⟩ | ⟨hb, hrange⟩ |
        ⟨hu, hrange⟩ | h)
      · rw [hop] at h
        cases h
      · rw [hrole] at h
        cases h
      · obtain ⟨-, names, hn', -⟩ := hfit.names hcount
        rw [hn] at hn'
        cases hn'
      · obtain rfl : op = op' := Option.some.inj (hop.symm.trans hop')
        obtain ⟨t, hv⟩ := hfit.text hhas
        rw [hv] at ht
        cases ht
      · rcases (hfit.names hcount).1 with rfl | rfl
        · exact hf hop
        · exact hs hop
      · rcases hfit.typeName ht with rfl | rfl
        · exact hv hop
        · exact hr hop
      · obtain rfl : op = .binary := Option.some.inj (hop.symm.trans hb)
        have hin := operator_isSome.mp (hfit.binary rfl)
        have : (binaryOperators.length : Int) = 13 := rfl
        omega
      · obtain rfl : op = .unary := Option.some.inj (hop.symm.trans hu)
        have hin := operator_isSome.mp (hfit.unary rfl)
        have : (unaryOperators.length : Int) = 4 := rfl
        omega
      · exact h hfirst
    · by_contra htrue
      obtain ⟨names, hn, j, hj, hname⟩ := hnull.mp (by simpa using htrue)
      obtain ⟨-, names', hn', hall⟩ := hfit.names (by omega)
      obtain rfl : names = names' := Option.some.inj (hn.symm.trans hn')
      obtain ⟨s, hs⟩ := hall j hj
      rw [hname] at hs
      cases hs

end Vnt.Arena
