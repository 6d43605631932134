import Vnt.Arena.Lower
import Vnt.Arena.Exact
import Vnt.Arena.Rework

/-!
# `Arena.Spells` — the tree an array spells

`Spells nodes role h e`: the nodes of the chain `h` stand in the array at their positions, each with the payload of
its opcode, the role of its edge, and links to its first child, its last child and its next sibling; the last sibling
links to `e`. Nothing is left open, so a chain is spelled in at most one way, and the positions outside it do not
matter.
-/

namespace Vnt.Arena

open Lib

/-! ## Payloads of the tree's opcodes -/

def leafPayload : HirLeaf → VntIrNode
  | .struct name names => payloadNode .struct 0 names none (.text (some name))
  | .breakNode => plainNode .break
  | .continueNode => plainNode .continue
  | .string text => textNode .string text
  | .integer v => payloadNode .integer 0 [] none (.integer v)
  | .float v => payloadNode .float 0 [] none (.floating v)
  | .boolean b => payloadNode .boolean 0 [] none (.boolean b)
  | .null => plainNode .null
  | .variable x => textNode .variable x
  | .asm text isVolatile => payloadNode .asm (if isVolatile then 1 else 0) [] none (.text (some text))

def onePayload : HirOne → VntIrNode
  | .program => plainNode .program
  | .print => plainNode .print
  | .function name names => payloadNode .function 0 names none (.text (some name))
  | .call name => textNode .call name
  | .returnNode => plainNode .return
  | .array => plainNode .array
  | .variableDecl x t => payloadNode .variableDecl 0 [] t (.text (some x))
  | .reassign x t => payloadNode .reassign 0 [] t (.text (some x))
  | .member name => textNode .member name
  | .unary operation => payloadNode .unary (operationOf unaryOperators operation) [] none (.integer 0)

def twoPayload : HirTwo → VntIrNode
  | .whileNode => plainNode .while
  | .index => plainNode .index
  | .assign => plainNode .assign
  | .binary operation => payloadNode .binary (operationOf binaryOperators operation) [] none (.integer 0)

def oneRole : HirOne → VntIrEdgeRole
  | .program => .statement
  | .function _ _ => .body
  | .call _ => .argument
  | .array => .element
  | .member _ => .object
  | .unary _ => .operand
  | .print | .returnNode | .variableDecl _ _ | .reassign _ _ => .value

def firstRole : HirTwo → VntIrEdgeRole
  | .whileNode => .condition
  | .index => .object
  | .assign => .target
  | .binary _ => .left

def secondRole : HirTwo → VntIrEdgeRole
  | .whileNode => .body
  | .index => .index
  | .assign => .value
  | .binary _ => .right

/-- The payload of an opcode in its place: under an edge of the role, with the children `cs`, before `next`. -/
def VntIrNode.placed (n : VntIrNode) (role : VntIrEdgeRole) (cs : List Nat) (next : Option Nat) : VntIrNode :=
  { n with
    role := some role
    firstChild := cs.head?
    lastChild := cs.getLast?
    nextSibling := next
    childCount := cs.length }

/-! ## Positions -/

/-- The positions of the siblings of a chain. -/
@[simp] def siblings : Hir → List Nat
  | .nil => []
  | .leaf i _ n => i :: siblings n
  | .one i _ _ n => i :: siblings n
  | .two i _ _ _ n => i :: siblings n
  | .ifNode i _ _ _ n => i :: siblings n

/-- The positions of all nodes, a parent before its children. -/
@[simp] def positions : Hir → List Nat
  | .nil => []
  | .leaf i _ n => i :: positions n
  | .one i _ a n => i :: (positions a ++ positions n)
  | .two i _ a b n => i :: (positions a ++ (positions b ++ positions n))
  | .ifNode i c t e n => i :: (positions c ++ (positions t ++ (positions e ++ positions n)))

/-- The link to a chain that goes on with `e`. -/
def start (h : Hir) (e : Option Nat) : Option Nat := (siblings h).head?.or e

theorem head?_append_start (h : Hir) (cs : List Nat) : (siblings h ++ cs).head? = start h cs.head? := by
  rw [start, List.head?_append]

theorem siblings_subset_positions (h : Hir) : siblings h ⊆ positions h := by
  induction h with
  | nil => exact List.Subset.refl _
  | leaf i op n hn => exact List.cons_subset_cons i hn
  | one i op a n _ hn => exact List.cons_subset_cons i (List.subset_append_of_subset_right _ hn)
  | two i op a b n _ _ hn =>
      exact List.cons_subset_cons i (List.subset_append_of_subset_right _ (List.subset_append_of_subset_right _ hn))
  | ifNode i c t e n _ _ _ hn =>
      exact List.cons_subset_cons i (List.subset_append_of_subset_right _ (List.subset_append_of_subset_right _
        (List.subset_append_of_subset_right _ hn)))

theorem length_siblings (h : Hir) : (siblings h).length = h.length := by
  induction h <;> simp_all [siblings, Hir.length]

/-- The numbered positions are consecutive. -/
theorem positions_number (h : Hir) : ∀ k, positions (h.number k) = List.range' k h.size := by
  induction h with
  | nil => intro k; rfl
  | leaf i op n hn =>
      intro k
      simp only [Hir.number, positions, hn, Hir.size, List.range'_succ]
  | one i op a n ha hn =>
      intro k
      simp only [Hir.number, positions, ha, hn, Hir.size, List.range'_succ, List.range'_append_1]
  | two i op a b n ha hb hn =>
      intro k
      simp only [Hir.number, positions, ha, hb, hn, Hir.size, List.range'_succ, List.range'_append_1]
      rw [Nat.add_assoc]
  | ifNode i c t e n hc ht he hn =>
      intro k
      simp only [Hir.number, positions, hc, ht, he, hn, Hir.size, List.range'_succ, List.range'_append_1]
      rw [Nat.add_assoc, Nat.add_assoc]

/-! ## Spelled chains -/

/-- The chain stands in the array, under edges of the role, and goes on with `e`. -/
def Spells (nodes : List VntIrNode) : VntIrEdgeRole → Hir → Option Nat → Prop
  | _, .nil, _ => True
  | role, .leaf i op n, e =>
      nodes[i]? = some ((leafPayload op).placed role [] (start n e)) ∧ Spells nodes role n e
  | role, .one i op a n, e =>
      nodes[i]? = some ((onePayload op).placed role (siblings a) (start n e)) ∧
      Spells nodes (oneRole op) a none ∧ Spells nodes role n e
  | role, .two i op a b n, e =>
      nodes[i]? = some ((twoPayload op).placed role (siblings a ++ siblings b) (start n e)) ∧
      Spells nodes (firstRole op) a (start b none) ∧ Spells nodes (secondRole op) b none ∧ Spells nodes role n e
  | role, .ifNode i c t e' n, e =>
      nodes[i]? = some ((plainNode .if).placed role (siblings c ++ (siblings t ++ siblings e')) (start n e)) ∧
      Spells nodes .condition c (start t (start e' none)) ∧ Spells nodes .then t (start e' none) ∧
      Spells nodes .else e' none ∧ Spells nodes role n e

theorem Spells.frame {nodes nodes' : List VntIrNode} {h : Hir} : ∀ {role : VntIrEdgeRole} {e : Option Nat},
    Spells nodes role h e → (∀ j ∈ positions h, nodes'[j]? = nodes[j]?) → Spells nodes' role h e := by
  induction h with
  | nil => intro role e h _; trivial
  | leaf i op n hn =>
      intro role e h hsame
      simp only [positions, List.forall_mem_cons] at hsame
      exact ⟨hsame.1.trans h.1, hn h.2 hsame.2⟩
  | one i op a n ha hn =>
      intro role e h hsame
      simp only [positions, List.forall_mem_cons, List.forall_mem_append] at hsame
      exact ⟨hsame.1.trans h.1, ha h.2.1 hsame.2.1, hn h.2.2 hsame.2.2⟩
  | two i op a b n ha hb hn =>
      intro role e h hsame
      simp only [positions, List.forall_mem_cons, List.forall_mem_append] at hsame
      exact ⟨hsame.1.trans h.1, ha h.2.1 hsame.2.1, hb h.2.2.1 hsame.2.2.1, hn h.2.2.2 hsame.2.2.2⟩
  | ifNode i c t e' n hc ht he hn =>
      intro role e h hsame
      simp only [positions, List.forall_mem_cons, List.forall_mem_append] at hsame
      exact ⟨hsame.1.trans h.1, hc h.2.1 hsame.2.1, ht h.2.2.1 hsame.2.2.1, he h.2.2.2.1 hsame.2.2.2.1,
        hn h.2.2.2.2 hsame.2.2.2.2⟩

/-! ## Spelled trees are well-formed -/

/-- The links of a chain that goes on with the forest `f`. -/
@[simp] def forestOf : Hir → Forest → Forest
  | .nil, f => f
  | .leaf i _ n, f => .node i .nil (forestOf n f)
  | .one i _ a n, f => .node i (forestOf a .nil) (forestOf n f)
  | .two i _ a b n, f => .node i (forestOf a (forestOf b .nil)) (forestOf n f)
  | .ifNode i c t e n, f => .node i (forestOf c (forestOf t (forestOf e .nil))) (forestOf n f)

theorem indices_forestOf (h : Hir) : ∀ f, (forestOf h f).indices = positions h ++ f.indices := by
  induction h <;> simp_all [forestOf, positions]

theorem roots_forestOf (h : Hir) : ∀ f, (forestOf h f).roots = siblings h ++ f.roots := by
  induction h <;> simp_all [forestOf, siblings]

theorem Spells.linked {nodes : List VntIrNode} {h : Hir} : ∀ {role : VntIrEdgeRole} {e : Option Nat} {f : Forest},
    Spells nodes role h e → Linked nodes e f → Linked nodes (start h e) (forestOf h f) := by
  have hnil : Linked nodes none .nil := rfl
  induction h with
  | nil => intro role e f _ hf; exact hf
  | leaf i op n hn => intro role e f h hf; exact ⟨rfl, _, h.1, rfl, hn h.2 hf⟩
  | one i op a n ha hn =>
      intro role e f h hf
      have hkids := ha h.2.1 hnil
      rw [← List.head?_nil, ← head?_append_start, List.append_nil] at hkids
      exact ⟨rfl, _, h.1, hkids, hn h.2.2 hf⟩
  | two i op a b n ha hb hn =>
      intro role e f h hf
      have hkids := ha h.2.1 (hb h.2.2.1 hnil)
      rw [← @List.head?_nil Nat, ← head?_append_start, List.append_nil, ← head?_append_start] at hkids
      exact ⟨rfl, _, h.1, hkids, hn h.2.2.2 hf⟩
  | ifNode i c t e' n hc ht he hn =>
      intro role e f h hf
      have hkids := hc h.2.1 (ht h.2.2.1 (he h.2.2.2.1 hnil))
      rw [← @List.head?_nil Nat, ← head?_append_start, List.append_nil, ← head?_append_start,
        ← head?_append_start] at hkids
      exact ⟨rfl, _, h.1, hkids, hn h.2.2.2.2 hf⟩

/-- The roles of a spelled chain. -/
theorem Spells.roles {nodes : List VntIrNode} {h : Hir} : ∀ {role : VntIrEdgeRole} {e : Option Nat},
    Spells nodes role h e → rolesOf nodes (siblings h) = List.replicate h.length (some role) := by
  have hcons : ∀ {i : Nat} {n : VntIrNode} {m : Hir} {role : VntIrEdgeRole}, nodes[i]? = some n →
      n.role = some role → rolesOf nodes (siblings m) = List.replicate m.length (some role) →
      rolesOf nodes (i :: siblings m) = List.replicate (m.length + 1) (some role) := by
    intro i n m role hi hrole hm
    rw [List.replicate_succ, ← hm, rolesOf, List.map_cons, hi, Option.bind_some, hrole]
    rfl
  induction h with
  | nil => intro role e _; rfl
  | leaf i op n hn => intro role e h; exact hcons h.1 rfl (hn h.2)
  | one i op a n _ hn => intro role e h; exact hcons h.1 rfl (hn h.2.2)
  | two i op a b n _ _ hn => intro role e h; exact hcons h.1 rfl (hn h.2.2.2)
  | ifNode i c t e' n _ _ _ hn => intro role e h; exact hcons h.1 rfl (hn h.2.2.2.2)

theorem payloadFits_placed {op : VntIrOpcode} {operation : Int} {names : List String} {typeName : Option String}
    {value : VntIrValue} (htext : op.hasText = true → ∃ t, value = .text (some t))
    (hnames : names = [] ∨ op = .function ∨ op = .struct)
    (htype : typeName = none ∨ op = .variableDecl ∨ op = .reassign)
    (hbinary : op = .binary → ∃ o, operator? binaryOperators operation = some o)
    (hunary : op = .unary → ∃ o, operator? unaryOperators operation = some o) {role : VntIrEdgeRole} {cs : List Nat}
    {next : Option Nat} : PayloadFits ((payloadNode op operation names typeName value).placed role cs next) op where
  text := htext
  names := by
    intro hcount
    have hcount' : names.length ≠ 0 := hcount
    refine ⟨hnames.resolve_left ?_, names.map some, ?_, ?_⟩
    · rintro rfl
      exact hcount' rfl
    · show copyNames names = _
      rw [copyNames, if_neg hcount']
    · intro j hj
      have hj' : j < names.length := hj
      exact ⟨names[j], by rw [List.getElem?_map, List.getElem?_eq_getElem hj']; rfl⟩
  typeName := fun h => htype.resolve_left h
  binary := hbinary
  unary := hunary

theorem operator?_binary (o : BinaryOperator) : operator? binaryOperators (operationOf binaryOperators o) = some o := by
  cases o <;> rfl

theorem operator?_unary (o : UnaryOperator) : operator? unaryOperators (operationOf unaryOperators o) = some o := by
  cases o <;> rfl

variable {nodes : List VntIrNode} {role : VntIrEdgeRole} {next : Option Nat} {cs : List Nat}

theorem nodeFits_leaf (op : HirLeaf) : NodeFits nodes ((leafPayload op).placed role [] next) [] := by
  refine ⟨rfl, rfl, ?_⟩
  cases op
  all_goals
    refine ⟨_, rfl, payloadFits_placed ?_ ?_ ?_ ?_ ?_, ?_⟩ <;> simp [Shape, rolesOf]

theorem nodeFits_one {op : HirOne} {a : Hir}
    (hshape : (match op with
      | .program | .function _ _ | .call _ | .array => true
      | .print | .returnNode | .variableDecl _ _ => a.length ≤ 1
      | .reassign _ _ | .member _ | .unary _ => a.length == 1) = true)
    (hroles : rolesOf nodes cs = List.replicate a.length (some (oneRole op))) :
    NodeFits nodes ((onePayload op).placed role cs next) cs := by
  refine ⟨rfl, rfl, ?_⟩
  cases op
  case program | function | call | array =>
    refine ⟨_, rfl, payloadFits_placed ?_ ?_ ?_ ?_ ?_, ?_⟩ <;>
      simp +contextual [VntIrOpcode.hasText, Shape, hroles, oneRole]
  case unary o =>
    refine ⟨_, rfl, payloadFits_placed ?_ ?_ ?_ ?_ ?_, ?_⟩ <;>
      simp_all [VntIrOpcode.hasText, Shape, oneRole, operator?_unary]
  case print | returnNode | variableDecl =>
    have hle : a.length = 0 ∨ a.length = 1 := by
      have : a.length ≤ 1 := by simpa using hshape
      omega
    refine ⟨_, rfl, payloadFits_placed ?_ ?_ ?_ ?_ ?_, ?_⟩ <;>
      first
      | simp
      | rw [hroles]
        rcases hle with hlen | hlen <;> simp [hlen, Shape, oneRole]
  all_goals
    refine ⟨_, rfl, payloadFits_placed ?_ ?_ ?_ ?_ ?_, ?_⟩ <;>
      simp_all [VntIrOpcode.hasText, Shape, oneRole]

theorem nodeFits_two {op : HirTwo} {a b : Hir}
    (hshape : (match op with
      | .whileNode => a.length == 1
      | .index | .assign | .binary _ => a.length == 1 && b.length == 1) = true)
    (hroles : rolesOf nodes cs =
      List.replicate a.length (some (firstRole op)) ++ List.replicate b.length (some (secondRole op))) :
    NodeFits nodes ((twoPayload op).placed role cs next) cs := by
  refine ⟨rfl, rfl, ?_⟩
  cases op <;> simp only [Bool.and_eq_true, beq_iff_eq] at hshape
  case whileNode =>
    refine ⟨_, rfl, payloadFits_placed ?_ ?_ ?_ ?_ ?_, ?_⟩ <;>
      simp_all [VntIrOpcode.hasText, Shape, firstRole, secondRole, List.count_replicate]
  all_goals
    refine ⟨_, rfl, payloadFits_placed ?_ ?_ ?_ ?_ ?_, ?_⟩ <;>
      simp_all [VntIrOpcode.hasText, Shape, firstRole, secondRole, operator?_binary]

theorem nodeFits_if {c t e : Hir}
    (hroles : rolesOf nodes cs = List.replicate c.length (some .condition) ++
      (List.replicate t.length (some .then) ++ List.replicate e.length (some .else)))
    (hshape : c.length = 1) : NodeFits nodes ((plainNode .if).placed role cs next) cs := by
  refine ⟨rfl, rfl, _, rfl, payloadFits_placed ?_ ?_ ?_ ?_ ?_, ?_⟩ <;> try simp
  rw [hroles, hshape]
  refine ⟨by simp [List.count_replicate], fun r hr => ?_⟩
  simp only [List.mem_append, List.mem_replicate] at hr
  rcases hr with ⟨-, rfl⟩ | ⟨-, rfl⟩ | ⟨-, rfl⟩
  · exact .inl rfl
  · exact .inr (.inl rfl)
  · exact .inr (.inr rfl)

/-- A spelled chain of the right shape fits. -/
theorem Spells.fits {h : Hir} : ∀ {role : VntIrEdgeRole} {e : Option Nat} {f : Forest}, Spells nodes role h e →
    Vnt.validateNodeShape h = true → Fits nodes f → Fits nodes (forestOf h f) := by
  induction h with
  | nil => intro role e f _ _ hf; exact hf
  | leaf i op n hn =>
      intro role e f h hs hf
      exact fits_node.mpr ⟨⟨_, h.1, nodeFits_leaf op⟩, fits_nil, hn h.2 hs hf⟩
  | one i op a n ha hn =>
      intro role e f h hs hf
      simp only [Vnt.validateNodeShape, Bool.and_eq_true] at hs
      have hroots : (forestOf a .nil).roots = siblings a := by simp [roots_forestOf]
      refine fits_node.mpr ⟨⟨_, h.1, ?_⟩, ha h.2.1 hs.1.2 fits_nil, hn h.2.2 hs.2 hf⟩
      rw [hroots]
      exact nodeFits_one hs.1.1 h.2.1.roles
  | two i op a b n ha hb hn =>
      intro role e f h hs hf
      simp only [Vnt.validateNodeShape, Bool.and_eq_true] at hs
      have hroots : (forestOf a (forestOf b .nil)).roots = siblings a ++ siblings b := by simp [roots_forestOf]
      refine fits_node.mpr ⟨⟨_, h.1, ?_⟩, ha h.2.1 hs.1.1.2 (hb h.2.2.1 hs.1.2 fits_nil), hn h.2.2.2 hs.2 hf⟩
      rw [hroots]
      refine nodeFits_two (a := a) (b := b) hs.1.1.1 ?_
      rw [rolesOf, List.map_append, ← h.2.1.roles, ← h.2.2.1.roles]
      rfl
  | ifNode i c t e' n hc ht he hn =>
      intro role e f h hs hf
      simp only [Vnt.validateNodeShape, Bool.and_eq_true, beq_iff_eq] at hs
      have hroots : (forestOf c (forestOf t (forestOf e' .nil))).roots = siblings c ++ (siblings t ++ siblings e') := by
        simp [roots_forestOf]
      refine fits_node.mpr ⟨⟨_, h.1, ?_⟩,
        hc h.2.1 hs.1.1.1.2 (ht h.2.2.1 hs.1.1.2 (he h.2.2.2.1 hs.1.2 fits_nil)), hn h.2.2.2.2 hs.2 hf⟩
      rw [hroots]
      refine nodeFits_if (t := t) (e := e') ?_ hs.1.1.1.1
      rw [rolesOf, List.map_append, List.map_append, ← h.2.1.roles, ← h.2.2.1.roles, ← h.2.2.2.1.roles]
      rfl

/-- An array that spells a valid tree, and nothing else, is well-formed. -/
theorem Spells.wellFormed {h : Hir} (hs : Spells nodes .root h none) (hv : Vnt.vntIrValidate h = true)
    {root : Nat} (hroot : start h none = some root) (hall : positions h = List.range nodes.length) :
    WellFormed ⟨nodes, root⟩ := by
  cases h with
  | one i op a n =>
      cases op with
      | program =>
          cases n with
          | nil =>
              obtain rfl : i = root := Option.some.inj hroot
              have hshape : Vnt.validateNodeShape (.one i .program a .nil) = true := by
                simpa [Vnt.validateNodeShape, Vnt.vntIrValidate] using hv
              refine ⟨forestOf a .nil, hs.linked rfl, ?_, ⟨_, hs.1, rfl, rfl⟩, hs.fits hshape fits_nil⟩
              have hindices := indices_forestOf (.one i .program a .nil) .nil
              rw [hall, Forest.indices_nil, List.append_nil] at hindices
              exact hindices ▸ List.Perm.refl _
          | _ => cases hv
      | _ => cases hv
  | _ => cases hv

end Vnt.Arena
