import Vnt.Front.Ast
import Vnt.Lib.Forest

/-!
# `Arena.Node` — the flat node array

`ir.h`: the HIR is one growable array of nodes linked by indices. `Hir` is the tree such an array stands for once
it is valid; here is the array itself, with links that may be anything. A link is `none` for `VNT_IR_NO_NODE`.
Loops that follow links take fuel, and reading outside an array is a fault of its own, so that a run which ends
well is told from one that does not end and from one that leaves the array.
-/

namespace Vnt.Arena

/-- `VntIrOpcode`. -/
inductive VntIrOpcode where
  | program | print | «if» | «while» | function | struct | call | «return» | «break» | «continue»
  | string | integer | float | boolean | null | array | variableDecl | «variable» | index | member
  | assign | binary | unary | reassign | asm
  deriving DecidableEq, Repr

/-- `VntIrEdgeRole`. -/
inductive VntIrEdgeRole where
  | root | statement | condition | then | else | body | value | target | argument | element | object
  | index | left | right | operand
  deriving DecidableEq, Repr

/-- The union `value`, by the member last written. -/
inductive VntIrValue where
  | integer (v : Int64)
  | boolean (v : Bool)
  | floating (v : Double)
  | text (t : Option String)
  deriving DecidableEq, Repr

/-- `value.text`, when the union holds one and it is not `NULL`. -/
def VntIrValue.text? : VntIrValue → Option String
  | .text t => t
  | _ => none

/-- `VntIrNode`. A C enumeration may hold any number: `none` stands for one outside the enumeration. `names` is
    `NULL` or points to `name_count` strings, each of which may be `NULL`. -/
structure VntIrNode where
  opcode : Option VntIrOpcode
  role : Option VntIrEdgeRole
  operation : Int
  names : Option (List (Option String))
  nameCount : Nat
  typeName : Option String
  firstChild : Option Nat
  lastChild : Option Nat
  nextSibling : Option Nat
  childCount : Nat
  value : VntIrValue
  names_size : ∀ l, names = some l → nameCount ≤ l.length

theorem null_names (l : List (Option String)) (_ : (none : Option (List (Option String))) = some l) : 0 ≤ l.length :=
  Nat.zero_le l.length

/-- `VntIrProgram`; the length of `nodes` is `node_count`. -/
structure VntIrProgram where
  nodes : List VntIrNode
  root : Nat

/-- `BINARY_ADD` to `BINARY_OR`. -/
def binaryOperators : List BinaryOperator :=
  [.add, .subtract, .multiply, .divide, .modulo, .equal, .notEqual, .greater, .less, .greaterEqual,
    .lessEqual, .and, .or]

/-- `UNARY_NOT` to `UNARY_DEREFERENCE`. -/
def unaryOperators : List UnaryOperator := [.not, .negate, .reference, .dereference]

/-- The operator an `operation` field is the number of. -/
def operator? {α : Type} (operators : List α) (operation : Int) : Option α :=
  if operation < 0 then none else operators[operation.toNat]?

/-! ## Runs -/

/-- What a run can meet instead of its end. -/
inductive Fault where
  | outOfBounds
  | nullPointer
  | unfinished
  deriving DecidableEq, Repr

abbrev Run := Except Fault

/-- `xs[i]`. -/
def access {α : Type} (xs : List α) (i : Nat) : Run α :=
  match xs[i]? with
  | some x => .ok x
  | none => .error .outOfBounds

theorem access_eq_ok {α : Type} {xs : List α} {i : Nat} {x : α} : access xs i = .ok x ↔ xs[i]? = some x := by
  unfold access
  cases xs[i]? <;> simp

/-! ## Building and searching -/

/-- The node `reserve_node` writes: all bytes zero, and no links. -/
def zeroNode : VntIrNode where
  opcode := some .program
  role := some .root
  operation := 0
  names := none
  nameCount := 0
  typeName := none
  firstChild := none
  lastChild := none
  nextSibling := none
  childCount := 0
  value := .integer 0
  names_size := null_names

/-- `reserve_node`: the array with one node more, and its index. -/
def reserveNode (nodes : List VntIrNode) : List VntIrNode × Nat := (nodes ++ [zeroNode], nodes.length)

/-- `add_child`; `none` is `return 0`. -/
def addChild (nodes : List VntIrNode) (parent child : Nat) : Run (Option (List VntIrNode)) :=
  if parent ≥ nodes.length ∨ child ≥ nodes.length then pure none
  else do
    let p ← access nodes parent
    let linked ← match p.lastChild with
      | none => pure (nodes.set parent { p with firstChild := some child })
      | some last => do
          let n ← access nodes last
          pure (nodes.set last { n with nextSibling := some child })
    let p ← access linked parent
    pure (some (linked.set parent { p with lastChild := some child, childCount := p.childCount + 1 }))

/-- The siblings from a link on, until one with the role: the loop of `hir_child_role`. -/
@[simp] def siblingRole (nodes : List VntIrNode) (role : VntIrEdgeRole) : Nat → Option Nat → Run (Option Nat)
  | _, none => pure none
  | 0, some _ => throw .unfinished
  | fuel + 1, some c => do
      let n ← access nodes c
      if n.role = some role then pure (some c) else siblingRole nodes role fuel n.nextSibling

/-- `hir_child_role`. -/
def hirChildRole (fuel : Nat) (nodes : List VntIrNode) (parent : Nat) (role : VntIrEdgeRole) : Run (Option Nat) := do
  let p ← access nodes parent
  siblingRole nodes role fuel p.firstChild

/-! ## Opcodes with a text -/

/-- The opcodes whose union member is `text`. -/
@[simp] def VntIrOpcode.hasText : VntIrOpcode → Bool
  | .string | .variableDecl | .reassign | .variable | .member | .call | .function | .struct | .asm => true
  | _ => false

/-- The links of the array spell a forest, or a chain of siblings. -/
abbrev Linked (nodes : List VntIrNode) : Option Nat → Lib.Forest → Prop :=
  Lib.Linked VntIrNode.firstChild VntIrNode.nextSibling nodes

abbrev Chain (nodes : List VntIrNode) : Option Nat → List Nat → Prop :=
  Lib.Chain VntIrNode.nextSibling nodes

/-!
## `vnt_ir_validate`

Two passes over the array: every node by itself, with its list of children and a count of parents, and then a
walk with an explicit stack from the root. `none` and `false` are `return 0`.
-/

/-- `role_count`. -/
def roleCount (nodes : List VntIrNode) (role : VntIrEdgeRole) : Nat → Option Nat → Run Nat
  | _, none => pure 0
  | 0, some _ => throw .unfinished
  | fuel + 1, some child => do
      let n ← access nodes child
      let rest ← roleCount nodes role fuel n.nextSibling
      pure (if n.role = some role then rest + 1 else rest)

/-- `validate_node_shape`. The counters are C `int`s; they count nodes of one array. -/
def validateNodeShape (fuel : Nat) (nodes : List VntIrNode) (node : VntIrNode) : Run Bool := do
  let statements ← roleCount nodes .statement fuel node.firstChild
  let conditions ← roleCount nodes .condition fuel node.firstChild
  let thenEdges ← roleCount nodes .then fuel node.firstChild
  let elseEdges ← roleCount nodes .else fuel node.firstChild
  let bodies ← roleCount nodes .body fuel node.firstChild
  let values ← roleCount nodes .value fuel node.firstChild
  let targets ← roleCount nodes .target fuel node.firstChild
  let args ← roleCount nodes .argument fuel node.firstChild
  let elements ← roleCount nodes .element fuel node.firstChild
  let objects ← roleCount nodes .object fuel node.firstChild
  let indices ← roleCount nodes .index fuel node.firstChild
  let lefts ← roleCount nodes .left fuel node.firstChild
  let rights ← roleCount nodes .right fuel node.firstChild
  let operands ← roleCount nodes .operand fuel node.firstChild
  let count := node.childCount
  pure <| match node.opcode with
    | some .program =>
        decide (statements = count ∧ conditions = 0 ∧ thenEdges = 0 ∧ elseEdges = 0 ∧ bodies = 0 ∧ values = 0 ∧
          targets = 0 ∧ args = 0 ∧ elements = 0 ∧ objects = 0 ∧ indices = 0 ∧ lefts = 0 ∧ rights = 0 ∧
          operands = 0)
    | some .print | some .return => decide (values = count ∧ values ≤ 1)
    | some .if =>
        decide (conditions = 1 ∧ thenEdges + elseEdges + conditions = count ∧ statements = 0 ∧ bodies = 0 ∧
          values = 0 ∧ targets = 0 ∧ args = 0 ∧ elements = 0 ∧ objects = 0 ∧ indices = 0 ∧ lefts = 0 ∧
          rights = 0 ∧ operands = 0)
    | some .while =>
        decide (conditions = 1 ∧ bodies + conditions = count ∧ statements = 0 ∧ thenEdges = 0 ∧ elseEdges = 0 ∧
          values = 0 ∧ targets = 0 ∧ args = 0 ∧ elements = 0 ∧ objects = 0 ∧ indices = 0 ∧ lefts = 0 ∧
          rights = 0 ∧ operands = 0)
    | some .function =>
        decide (bodies = count ∧ conditions = 0 ∧ thenEdges = 0 ∧ elseEdges = 0 ∧ values = 0 ∧ targets = 0 ∧
          args = 0 ∧ elements = 0 ∧ objects = 0 ∧ indices = 0 ∧ lefts = 0 ∧ rights = 0 ∧ operands = 0)
    | some .struct | some .break | some .continue | some .string | some .integer | some .float
    | some .boolean | some .null | some .variable | some .asm => decide (count = 0)
    | some .call => decide (args = count)
    | some .array => decide (elements = count)
    | some .variableDecl => decide (values = count ∧ values ≤ 1)
    | some .reassign => decide (values = 1 ∧ count = 1)
    | some .index => decide (objects = 1 ∧ indices = 1 ∧ count = 2)
    | some .member => decide (objects = 1 ∧ count = 1)
    | some .assign => decide (targets = 1 ∧ values = 1 ∧ count = 2)
    | some .binary => decide (lefts = 1 ∧ rights = 1 ∧ count = 2)
    | some .unary => decide (operands = 1 ∧ count = 1)
    | none => false

/-- The first tests on a node, up to the comparison of `first_child` with `child_count`. -/
def rejectsPayload (node : VntIrNode) : Bool :=
  decide (node.opcode = none ∨ node.role = none ∨ (node.nameCount ≠ 0 ∧ node.names = none) ∨
    ((∃ op ∈ node.opcode, op.hasText = true) ∧ node.value.text? = none) ∨
    (node.nameCount ≠ 0 ∧ node.opcode ≠ some .function ∧ node.opcode ≠ some .struct) ∨
    (node.typeName ≠ none ∧ node.opcode ≠ some .variableDecl ∧ node.opcode ≠ some .reassign) ∨
    (node.opcode = some .binary ∧ (node.operation < 0 ∨ node.operation > 12)) ∨
    (node.opcode = some .unary ∧ (node.operation < 0 ∨ node.operation > 3)) ∨
    ¬(node.firstChild = none ↔ node.childCount = 0))

/-- `!names[j]` for some `j` below the bound. -/
def hasNullName (names : List (Option String)) : Nat → Run Bool
  | 0 => pure false
  | j + 1 => do
      if ← hasNullName names j then return true
      let name ← access names j
      pure name.isNone

/-- The loop over `names`. -/
def rejectsNames (node : VntIrNode) : Run Bool :=
  match node.names with
  | none => pure false
  | some names => hasNullName names node.nameCount

/-- The loop over the children of node `i`: `seen`, `last` and the parent counts after it. -/
@[simp] def countChildren (nodes : List VntIrNode) (i : Nat) :
    Nat → List Nat → Option Nat → Nat → Option Nat → Run (Option (List Nat × Nat × Option Nat))
  | _, parents, none, seen, last => pure (some (parents, seen, last))
  | 0, _, some _, _, _ => throw .unfinished
  | fuel + 1, parents, some child, seen, _ =>
      if child ≥ nodes.length ∨ child = i ∨ seen + 1 > nodes.length then pure none
      else do
        let count ← access parents child
        if count + 1 > 1 then pure none
        else
          let n ← access nodes child
          countChildren nodes i fuel (parents.set child (count + 1)) n.nextSibling (seen + 1) (some child)

/-- `ir->nodes[node->last_child].next_sibling != VNT_IR_NO_NODE`, when there is a last child. -/
def lastHasSibling (nodes : List VntIrNode) : Option Nat → Run Bool
  | none => pure false
  | some last => do
      let n ← access nodes last
      pure n.nextSibling.isSome

/-- One round of the first loop: the parent counts after node `i`. -/
def validateNode (fuel : Nat) (nodes : List VntIrNode) (i : Nat) (parents : List Nat) : Run (Option (List Nat)) := do
  let node ← access nodes i
  if rejectsPayload node then return none
  if ← rejectsNames node then return none
  match ← countChildren nodes i fuel parents node.firstChild 0 none with
  | none => return none
  | some (parents, seen, last) =>
      if seen ≠ node.childCount ∨ last ≠ node.lastChild then return none
      if ← lastHasSibling nodes node.lastChild then return none
      if ← validateNodeShape fuel nodes node then return some parents
      return none

/-- The first loop. -/
def validateNodes (fuel : Nat) (nodes : List VntIrNode) : List Nat → List Nat → Run (Option (List Nat))
  | [], parents => pure (some parents)
  | i :: is, parents => do
      match ← validateNode fuel nodes i parents with
      | none => return none
      | some parents => validateNodes fuel nodes is parents

/-- The inner loop of the walk: push the children of the current node. -/
def pushChildren (nodes : List VntIrNode) (visited : List Bool) : Nat → Option Nat → List Nat → Run (Option (List Nat))
  | _, none, stack => pure (some stack)
  | 0, some _, _ => throw .unfinished
  | fuel + 1, some c, stack =>
      if c ≥ nodes.length then pure none
      else do
        if ← access visited c then return none
        if stack.length ≥ nodes.length then return none
        let n ← access nodes c
        pushChildren nodes visited fuel n.nextSibling (c :: stack)

/-- The walk from the root, the top of the stack first: whether it stays valid, and `reached`. -/
def walk (fuel : Nat) (nodes : List VntIrNode) : Nat → List Bool → List Nat → Nat → Run (Bool × Nat)
  | _, _, [], reached => pure (true, reached)
  | 0, _, _ :: _, _ => throw .unfinished
  | steps + 1, visited, current :: stack, reached =>
      if current ≥ nodes.length then pure (false, reached)
      else do
        if ← access visited current then return (false, reached)
        let visited := visited.set current true
        let n ← access nodes current
        match ← pushChildren nodes visited fuel n.firstChild stack with
        | none => return (false, reached + 1)
        | some stack => walk fuel nodes steps visited stack (reached + 1)

/-- `vnt_ir_validate`. -/
def vntIrValidate (fuel : Nat) (ir : VntIrProgram) : Run Bool := do
  if ir.root ≥ ir.nodes.length then return false
  let root ← access ir.nodes ir.root
  if root.opcode ≠ some .program then return false
  if root.role ≠ some .root ∨ root.nextSibling ≠ none then return false
  match ← validateNodes fuel ir.nodes (List.range ir.nodes.length) (List.replicate ir.nodes.length 0) with
  | none => return false
  | some parents =>
      let valid := (List.range ir.nodes.length).all fun i => parents[i]? = some (if i = ir.root then 0 else 1)
      if valid then
        let (valid, reached) ← walk fuel ir.nodes fuel (List.replicate ir.nodes.length false) [ir.root] 0
        return valid && reached == ir.nodes.length
      else return false

end Vnt.Arena
