import Vnt.Front.Ast

/-!
# `Ir.Hir` — the HIR tree

The compiler keeps its HIR in one flat array whose nodes are linked by `first_child` and
`next_sibling`; every child carries the role of the edge to its parent. A validated array is one ordered
tree, and `Hir` is that tree: a chain of siblings, each with its arena position `i`, its opcode with the
payload, and its children grouped by role. Grouping replaces the lookups `child(…, ROLE)`: the value of a
`PRINT` node is its only child, an `IF` node holds its condition and the two chains of `THEN` and `ELSE`
children.
-/

namespace Vnt

/-- Opcodes without children. -/
inductive HirLeaf where
  | struct (name : String) (names : List String)
  | breakNode
  | continueNode
  | string (text : String)
  | integer (value : Int64)
  | float (value : Double)
  | boolean (value : Bool)
  | null
  | variable (name : String)
  | asm (text : String) (isVolatile : Bool)
  deriving DecidableEq, Repr

/-- Opcodes whose children all have one role: `STATEMENT` (program), `VALUE` (print, return,
    declaration, reassignment), `BODY` (function), `ARGUMENT`, `ELEMENT`, `OBJECT`, `OPERAND`. -/
inductive HirOne where
  | program
  | print
  | function (name : String) (names : List String)
  | call (name : String)
  | returnNode
  | array
  | variableDecl (name : String) (typeName : Option String)
  | reassign (name : String) (typeName : Option String)
  | member (name : String)
  | unary (operation : UnaryOperator)
  deriving DecidableEq, Repr

/-- Opcodes with two roles: `CONDITION`/`BODY`, `OBJECT`/`INDEX`, `TARGET`/`VALUE`, `LEFT`/`RIGHT`. -/
inductive HirTwo where
  | whileNode
  | index
  | assign
  | binary (operation : BinaryOperator)
  deriving DecidableEq, Repr

/-- A chain of sibling nodes; `nil` is `VNT_IR_NO_NODE`. -/
inductive Hir where
  | nil
  | leaf (i : Nat) (op : HirLeaf) (next : Hir)
  | one (i : Nat) (op : HirOne) (a next : Hir)
  | two (i : Nat) (op : HirTwo) (a b next : Hir)
  | ifNode (i : Nat) (condition thens elses next : Hir)
  deriving DecidableEq, Repr

namespace Hir

/-- The rest of the sibling chain. -/
def next : Hir → Hir
  | nil => nil
  | leaf _ _ n => n
  | one _ _ _ n => n
  | two _ _ _ _ n => n
  | ifNode _ _ _ _ n => n

/-- The number of siblings in the chain. -/
@[simp] def length : Hir → Nat
  | nil => 0
  | leaf _ _ n => n.length + 1
  | one _ _ _ n => n.length + 1
  | two _ _ _ _ n => n.length + 1
  | ifNode _ _ _ _ n => n.length + 1

/-- The first node alone, without its siblings: what a function sees that is handed one index. -/
def head : Hir → Hir
  | nil => nil
  | leaf i op _ => leaf i op nil
  | one i op a _ => one i op a nil
  | two i op a b _ => two i op a b nil
  | ifNode i c t e _ => ifNode i c t e nil

/-- Link a chain behind the last sibling. -/
@[simp] def append : Hir → Hir → Hir
  | nil, h => h
  | leaf i op n, h => leaf i op (n.append h)
  | one i op a n, h => one i op a (n.append h)
  | two i op a b n, h => two i op a b (n.append h)
  | ifNode i c t e n, h => ifNode i c t e (n.append h)

/-- The number of nodes of the forest (`node_count` of the arena that holds exactly it). -/
@[simp] def size : Hir → Nat
  | nil => 0
  | leaf _ _ n => n.size + 1
  | one _ _ a n => a.size + n.size + 1
  | two _ _ a b n => a.size + b.size + n.size + 1
  | ifNode _ c t e n => c.size + t.size + e.size + n.size + 1

/-- `reserve_node` hands out positions in visiting order: a parent before its children, a node before its
    siblings. -/
@[simp] def number : Hir → Nat → Hir
  | nil, _ => nil
  | leaf _ op n, k => leaf k op (n.number (k + 1))
  | one _ op a n, k => one k op (a.number (k + 1)) (n.number (k + 1 + a.size))
  | two _ op a b n, k =>
      two k op (a.number (k + 1)) (b.number (k + 1 + a.size)) (n.number (k + 1 + a.size + b.size))
  | ifNode _ c t e n, k =>
      ifNode k (c.number (k + 1)) (t.number (k + 1 + c.size)) (e.number (k + 1 + c.size + t.size))
        (n.number (k + 1 + c.size + t.size + e.size))

end Hir

/-- `validate_node_shape`: the number of children each opcode asks for, over the whole forest. The other
    tests of `vnt_ir_validate` (links, roles, payload presence) hold of every tree. -/
def validateNodeShape : Hir → Bool
  | .nil => true
  | .leaf _ _ n => validateNodeShape n
  | .one _ op a n =>
      (match op with
        | .program | .function _ _ | .call _ | .array => true
        | .print | .returnNode | .variableDecl _ _ => a.length ≤ 1
        | .reassign _ _ | .member _ | .unary _ => a.length == 1)
      && validateNodeShape a && validateNodeShape n
  | .two _ op a b n =>
      (match op with
        | .whileNode => a.length == 1
        | .index | .assign | .binary _ => a.length == 1 && b.length == 1)
      && validateNodeShape a && validateNodeShape b && validateNodeShape n
  | .ifNode _ c t e n =>
      c.length == 1 && validateNodeShape c && validateNodeShape t && validateNodeShape e
        && validateNodeShape n

/-- `vnt_ir_validate`: the root is one `PROGRAM` node without a sibling, and every node has its shape. -/
def vntIrValidate : Hir → Bool
  | .one _ .program a .nil => validateNodeShape a
  | _ => false

end Vnt
