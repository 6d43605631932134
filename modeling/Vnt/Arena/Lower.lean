import Vnt.Arena.Node
import Vnt.Ir.Lower

/-!
# `Arena.Lower` — `vnt_ir_lower` on the array

`ir_lower.c` as it writes the array: `lower_node` reserves a node, fills in its payload and lowers the children
behind it, each one linked to its parent when its own subtree is finished. `resolve_hir_symbols` then follows the
links with a stack of declared symbols. `none` is `return 0` or the resolver's `error` flag; the depth of the
recursion over links takes fuel, a loop over siblings is unfinished once it has made more rounds than there are nodes.
-/

namespace Vnt.Arena

/-- Go on where a function that may `return 0` did not. -/
def andThen {α β : Type} (run : Run (Option α)) (next : α → Run (Option β)) : Run (Option β) := do
  match ← run with
  | none => pure none
  | some a => next a

/-! ## Payloads -/

/-- The number of an operator. -/
def operationOf {α : Type} [DecidableEq α] (operators : List α) (operator : α) : Int := operators.idxOf operator

/-- `copy_names`. -/
def copyNames (names : List String) : Option (List (Option String)) :=
  if names.length = 0 then none else some (names.map some)

/-- A fresh node with the payload that `lower_node` writes into it. -/
def payloadNode (opcode : VntIrOpcode) (operation : Int) (names : List String) (typeName : Option String)
    (value : VntIrValue) : VntIrNode where
  opcode := some opcode
  role := some .root
  operation := operation
  names := copyNames names
  nameCount := names.length
  typeName := typeName
  firstChild := none
  lastChild := none
  nextSibling := none
  childCount := 0
  value := value
  names_size := by
    intro l h
    unfold copyNames at h
    split at h
    · cases h
    · cases h
      simp

/-- The payload of a node that has an opcode only. -/
def plainNode (opcode : VntIrOpcode) : VntIrNode := payloadNode opcode 0 [] none (.integer 0)

/-- The payload of a node with a text. -/
def textNode (opcode : VntIrOpcode) (text : String) : VntIrNode := payloadNode opcode 0 [] none (.text (some text))

def leafNode : AstLeaf → VntIrNode
  | .structDeclaration name fields => payloadNode .struct 0 fields none (.text (some name))
  | .breakStatement => plainNode .break
  | .continueStatement => plainNode .continue
  | .stringLiteral value => textNode .string value
  | .integerLiteral value => payloadNode .integer 0 [] none (.integer value)
  | .floatLiteral value => payloadNode .float 0 [] none (.floating value)
  | .booleanLiteral value => payloadNode .boolean 0 [] none (.boolean value)
  | .nullLiteral => plainNode .null
  | .variable name => textNode .variable name
  | .asmStatement assembly isVolatile => payloadNode .asm (if isVolatile then 1 else 0) [] none (.text (some assembly))

def oneNode : AstOne → VntIrNode
  | .program | .unsafeBlock => plainNode .program
  | .printStatement => plainNode .print
  | .functionDeclaration h => payloadNode .function 0 (h.parameters.map (·.1)) none (.text (some h.name))
  | .functionCall name => textNode .call name
  | .returnStatement => plainNode .return
  | .arrayLiteral => plainNode .array
  | .variableDeclaration name declaredType isReassignment =>
      payloadNode (if isReassignment then .reassign else .variableDecl) 0 [] declaredType (.text (some name))
  | .memberExpression member => textNode .member member
  | .unaryExpression operator => payloadNode .unary (operationOf unaryOperators operator) [] none (.integer 0)

def twoNode : AstTwo → VntIrNode
  | .whileStatement => plainNode .while
  | .indexExpression => plainNode .index
  | .assignment => plainNode .assign
  | .binaryExpression operator => payloadNode .binary (operationOf binaryOperators operator) [] none (.integer 0)

/-! ## Lowering -/

/-- The role `lower_node` gives the children of a node with one child pointer. -/
def AstOne.childRole : AstOne → VntIrEdgeRole
  | .program | .unsafeBlock => .statement
  | .functionDeclaration _ => .body
  | .functionCall _ => .argument
  | .arrayLiteral => .element
  | .memberExpression _ => .object
  | .unaryExpression _ => .operand
  | .printStatement | .returnStatement | .variableDeclaration _ _ _ => .value

def AstTwo.firstRole : AstTwo → VntIrEdgeRole
  | .whileStatement => .condition
  | .indexExpression => .object
  | .assignment => .target
  | .binaryExpression _ => .left

def AstTwo.secondRole : AstTwo → VntIrEdgeRole
  | .whileStatement => .body
  | .indexExpression => .index
  | .assignment => .value
  | .binaryExpression _ => .right

/-- Whether the second child pointer is lowered as a list. -/
def AstTwo.secondIsList : AstTwo → Bool
  | .whileStatement => true
  | _ => false

/-- `reserve_node` and the payload. -/
def openNode (nodes : List VntIrNode) (payload : VntIrNode) : List VntIrNode :=
  let (nodes, result) := reserveNode nodes
  nodes.set result payload

/-- What `lower_list` and `lower_one` do with a lowered child: its role, and the link from the parent. -/
def linkChild (role : VntIrEdgeRole) (parent child : Nat) (nodes : List VntIrNode) :
    Run (Option (List VntIrNode)) := do
  let n ← access nodes child
  addChild (nodes.set child { n with role := some role }) parent child

/-- `lower_list` (with `list`) or `lower_one` on a child pointer of `parent`, and `lower_node` on each item. -/
def lowerInto (list : Bool) (role : VntIrEdgeRole) (parent : Nat) : AstNode → List VntIrNode →
    Run (Option (List VntIrNode))
  | .null, nodes => pure (some nodes)
  | .leaf kind next, nodes =>
      let result := nodes.length
      andThen (linkChild role parent result (openNode nodes (leafNode kind))) fun nodes =>
      if list then lowerInto true role parent next nodes else pure (some nodes)
  | .one kind child next, nodes =>
      let result := nodes.length
      andThen (lowerInto kind.isList (AstOne.childRole kind) result child (openNode nodes (oneNode kind))) fun nodes =>
      andThen (linkChild role parent result nodes) fun nodes =>
      if list then lowerInto true role parent next nodes else pure (some nodes)
  | .two kind first second next, nodes =>
      let result := nodes.length
      andThen (lowerInto false (AstTwo.firstRole kind) result first (openNode nodes (twoNode kind))) fun nodes =>
      andThen (lowerInto (AstTwo.secondIsList kind) (AstTwo.secondRole kind) result second nodes) fun nodes =>
      andThen (linkChild role parent result nodes) fun nodes =>
      if list then lowerInto true role parent next nodes else pure (some nodes)
  | .ifStatement condition thenBranch elseBranch next, nodes =>
      let result := nodes.length
      andThen (lowerInto false .condition result condition (openNode nodes (plainNode .if))) fun nodes =>
      andThen (lowerInto true .then result thenBranch nodes) fun nodes =>
      andThen (lowerInto true .else result elseBranch nodes) fun nodes =>
      andThen (linkChild role parent result nodes) fun nodes =>
      if list then lowerInto true role parent next nodes else pure (some nodes)

/-- `lower_node` on the root, which is a `PROGRAM`: the array, and the root's index. -/
def lowerProgram (statements : AstNode) (nodes : List VntIrNode) : Run (Option (List VntIrNode × Nat)) :=
  let result := nodes.length
  andThen (lowerInto true .statement result statements (openNode nodes (oneNode .program))) fun nodes =>
  pure (some (nodes, result))

/-! ## Symbol resolution -/

/-- The array and the resolver that walks it. -/
structure Binding where
  nodes : List VntIrNode
  resolver : HirResolver

/-- `value.text` of a node, read as a C string. -/
def textOf (n : VntIrNode) : Run String :=
  match n.value.text? with
  | some text => pure text
  | none => throw .nullPointer

/-- The children of a node from the first one with the role on: `hir_child_role` of `ir_lower.c`. -/
def roleChild (nodes : List VntIrNode) (index : Nat) (role : VntIrEdgeRole) : Run (Option Nat) :=
  match nodes[index]? with
  | none => pure none
  | some n => siblingRole nodes role nodes.length n.firstChild

/-- `hir_next_role`. -/
def hirNextRole (nodes : List VntIrNode) (index : Nat) (role : VntIrEdgeRole) : Run (Option Nat) :=
  match nodes[index]? with
  | none => pure none
  | some n => siblingRole nodes role nodes.length n.nextSibling

namespace Binding

/-- `resolver_rename` on the text of a node. -/
def rename (s : Binding) (index : Nat) (key : String) : Run (Option Binding) := do
  let n ← access s.nodes index
  pure (some { s with nodes := s.nodes.set index { n with value := .text (some key) } })

/-- Look the text of a node up, and rename it to the key that is found. -/
def renameFound (s : Binding) (index : Nat) : Run (Option Binding) := do
  let n ← access s.nodes index
  let x ← textOf n
  match s.resolver.find x with
  | none => pure none
  | some symbol => s.rename index symbol.storageKey

/-- Declare the text of a node, and rename it to its key. -/
def renameDeclared (s : Binding) (index : Nat) : Run (Option Binding) := do
  let n ← access s.nodes index
  let x ← textOf n
  Binding.rename { s with resolver := s.resolver.declare x } index (symbolKey s.resolver.nextId x)

/-- `resolver->depth++`. -/
def enter (s : Binding) : Binding := { s with resolver := s.resolver.enter }

/-- Remove the declarations of the current depth. -/
def pop (s : Binding) : Binding := { s with resolver := s.resolver.pop }

/-- Remove them, and `resolver->depth--`. -/
def leave (s : Binding) : Binding :=
  { s with resolver := { s.resolver.pop with depth := s.resolver.depth - 1 } }

end Binding

mutual

/-- `resolver_bind_expr`. -/
def resolverBindExpr : Nat → Option Nat → Binding → Run (Option Binding)
  | _, none, s => pure (some s)
  | 0, some _, _ => throw .unfinished
  | fuel + 1, some index, s =>
      match s.nodes[index]? with
      | none => pure (some s)
      | some node =>
          match node.opcode with
          | some .variable => s.renameFound index
          | some .variableDecl =>
              andThen (bindChild fuel .value index s) fun s => s.renameDeclared index
          | some .reassign =>
              andThen (bindChild fuel .value index s) fun s => s.renameFound index
          | some .program => resolverBindRole fuel .statement index s
          | some .print | some .return => bindChild fuel .value index s
          | some .if =>
              andThen (bindChild fuel .condition index s) fun s =>
              andThen (resolverBindRole fuel .then index s.enter) fun s =>
              andThen (resolverBindRole fuel .else index s.pop) fun s =>
              pure (some s.leave)
          | some .while =>
              andThen (bindChild fuel .condition index s) fun s =>
              andThen (resolverBindRole fuel .body index s.enter) fun s =>
              pure (some s.leave)
          | some .assign =>
              andThen (bindChild fuel .target index s) fun s => bindChild fuel .value index s
          | some .call | some .array => bindSiblings fuel node.firstChild s
          | some .index =>
              andThen (bindChild fuel .object index s) fun s => bindChild fuel .index index s
          | some .member => bindChild fuel .object index s
          | some .binary =>
              andThen (bindChild fuel .left index s) fun s => bindChild fuel .right index s
          | some .unary => bindChild fuel .operand index s
          | _ => pure (some s)

/-- `resolver_bind_expr` on the first child with the role. -/
def bindChild : Nat → VntIrEdgeRole → Nat → Binding → Run (Option Binding)
  | 0, _, _, _ => throw .unfinished
  | fuel + 1, role, index, s => do
      let child ← roleChild s.nodes index role
      resolverBindExpr fuel child s

/-- `resolver_bind_role`. -/
def resolverBindRole : Nat → VntIrEdgeRole → Nat → Binding → Run (Option Binding)
  | 0, _, _, _ => throw .unfinished
  | fuel + 1, role, index, s => do
      let child ← roleChild s.nodes index role
      bindRoleFrom fuel role child s

/-- Its loop. -/
def bindRoleFrom : Nat → VntIrEdgeRole → Option Nat → Binding → Run (Option Binding)
  | _, _, none, s => pure (some s)
  | 0, _, some _, _ => throw .unfinished
  | fuel + 1, role, some c, s =>
      andThen (resolverBindExpr fuel (some c) s) fun s => do
      let next ← hirNextRole s.nodes c role
      bindRoleFrom fuel role next s

/-- The loop over the arguments of a call or the elements of an array. -/
def bindSiblings : Nat → Option Nat → Binding → Run (Option Binding)
  | _, none, s => pure (some s)
  | 0, some _, _ => throw .unfinished
  | fuel + 1, some c, s =>
      andThen (resolverBindExpr fuel (some c) s) fun s => do
      let n ← access s.nodes c
      bindSiblings fuel n.nextSibling s

end

/-- The first loop of `resolve_hir_symbols`: declare the globals. -/
def predeclareFrom (nodes : List VntIrNode) : Nat → Option Nat → HirResolver → Run HirResolver
  | _, none, r => pure r
  | 0, some _, _ => throw .unfinished
  | fuel + 1, some c, r => do
      let n ← access nodes c
      if n.opcode = some .variableDecl then
        let x ← textOf n
        predeclareFrom nodes fuel n.nextSibling (r.declare x)
      else predeclareFrom nodes fuel n.nextSibling r

/-- The loop over the parameters of a function: their keys, and the resolver behind it. -/
def declareParameterNames : List (Option String) → HirResolver → Run (List (Option String) × HirResolver)
  | [], r => pure ([], r)
  | none :: _, _ => throw .nullPointer
  | some x :: names, r => do
      let (keys, r') ← declareParameterNames names (r.declare x)
      pure (some (symbolKey r.nextId x) :: keys, r')

/-- The node with its first names replaced. -/
def VntIrNode.withNames (n : VntIrNode) (keys : List (Option String)) : VntIrNode :=
  { n with
    names := n.names.map fun old => keys ++ old.drop keys.length
    names_size := by
      intro l h
      obtain ⟨old, hold, rfl⟩ := Option.map_eq_some_iff.mp h
      have := n.names_size old hold
      simp only [List.length_append, List.length_drop]
      omega }

/-- A function below the root: its parameters, its body, and everything it declared removed again. -/
def resolveFunction (fuel : Nat) (c : Nat) (s : Binding) : Run (Option Binding) := do
  let node ← access s.nodes c
  let base := s.resolver.symbols.length
  let names ← match node.names with
    | none => if node.nameCount = 0 then pure [] else throw .nullPointer
    | some names => pure (names.take node.nameCount)
  let (keys, r) ← declareParameterNames names { s.resolver with depth := 1 }
  andThen (resolverBindRole fuel .body c ⟨s.nodes.set c (node.withNames keys), r⟩) fun s =>
  pure (some { s with resolver := { s.resolver with
    symbols := s.resolver.symbols.drop (s.resolver.symbols.length - base), depth := 0 } })

/-- A declaration below the root: its key is that of the first global of its name. -/
def resolveGlobal (fuel : Nat) (globalCount : Nat) (c : Nat) (s : Binding) : Run (Option Binding) := do
  let node ← access s.nodes c
  let x ← textOf node
  match (s.resolver.symbols.reverse.take globalCount).find? fun symbol => symbol.sourceName == x with
  | none => pure none
  | some global => andThen (s.rename c global.storageKey) fun s => bindChild fuel .value c s

/-- The second loop of `resolve_hir_symbols`. -/
def resolveFrom (globalCount : Nat) : Nat → Option Nat → Binding → Run (Option Binding)
  | _, none, s => pure (some s)
  | 0, some _, _ => throw .unfinished
  | fuel + 1, some c, s => do
      let node ← access s.nodes c
      let run :=
        match node.opcode with
        | some .function => resolveFunction fuel c s
        | some .variableDecl => resolveGlobal fuel globalCount c s
        | _ => resolverBindExpr fuel (some c) s
      andThen run fun s => do
      let node ← access s.nodes c
      resolveFrom globalCount fuel node.nextSibling s

/-- `resolve_hir_symbols`. -/
def resolveHirSymbols (fuel : Nat) (ir : VntIrProgram) : Run (Option VntIrProgram) := do
  let root ← access ir.nodes ir.root
  let r ← predeclareFrom ir.nodes fuel root.firstChild ⟨[], 0, 0⟩
  andThen (resolveFrom r.symbols.length fuel root.firstChild ⟨ir.nodes, r⟩) fun s =>
  pure (some { ir with nodes := s.nodes })

/-- `vnt_ir_lower`. -/
def vntIrLower (fuel : Nat) : AstNode → Run (Option VntIrProgram)
  | .one .program statements _ =>
      andThen (lowerProgram statements []) fun (nodes, root) =>
      andThen (resolveHirSymbols fuel ⟨nodes, root⟩) fun ir => do
      if ← vntIrValidate fuel ir then pure (some ir) else pure none
  | _ => pure none

end Vnt.Arena
