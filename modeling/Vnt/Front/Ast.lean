import Mathlib.Data.List.Basic

/-!
# `Front.Ast` — the syntax tree the parser builds

`AstNode` is the C struct read as a value: a tagged union whose members hold child pointers, and a
`next` pointer that chains statements, call arguments and array elements. Pointers become subtrees and
`NULL` becomes `AstNode.null`. The union members are grouped by how many child pointers they carry
(`leaf`, `one`, `two`, and `ifStatement` with three), so that a traversal which does not care about
the member is one equation per group.
-/

namespace Vnt

/-- Binary operator ids shared by the AST and the HIR (`operators.h`). -/
inductive BinaryOperator where
  | add | subtract | multiply | divide | modulo
  | equal | notEqual | greater | less | greaterEqual | lessEqual
  | and | or
  deriving DecidableEq, Repr

/-- Unary operator ids shared by the AST and the HIR (`operators.h`). -/
inductive UnaryOperator where
  | not | negate | reference | dereference
  deriving DecidableEq, Repr

/-- A C `double`, known by its bit pattern only; every operation on it is taken from a `FloatUnit`. -/
structure Double where
  bits : UInt64
  deriving DecidableEq, Repr

/-- The fields of `function_declaration` other than the body. A parameter is a name with its optional
    type annotation. -/
structure FunctionHeader where
  name : String
  parameters : List (String × Option String)
  returnType : Option String
  isUnsafe : Bool
  deriving DecidableEq, Repr

/-- Union members without child pointers. -/
inductive AstLeaf where
  | structDeclaration (name : String) (fields : List String)
  | breakStatement
  | continueStatement
  | stringLiteral (value : String)
  | integerLiteral (value : Int64)
  | floatLiteral (value : Double)
  | booleanLiteral (value : Bool)
  | nullLiteral
  | variable (name : String)
  | asmStatement (assembly : String) (isVolatile : Bool)
  deriving DecidableEq, Repr

/-- Union members with one child pointer (a single node, or the head of a chain). -/
inductive AstOne where
  | program
  | printStatement
  | functionDeclaration (header : FunctionHeader)
  | functionCall (name : String)
  | returnStatement
  | arrayLiteral
  | variableDeclaration (name : String) (declaredType : Option String) (isReassignment : Bool)
  | memberExpression (member : String)
  | unaryExpression (operator : UnaryOperator)
  | unsafeBlock
  deriving DecidableEq, Repr

/-- Union members with two child pointers: condition and body, array and index, target and value, left
    and right operand. -/
inductive AstTwo where
  | whileStatement
  | indexExpression
  | assignment
  | binaryExpression (operator : BinaryOperator)
  deriving DecidableEq, Repr

/-- `AstNode *`: a node together with everything reachable through `next`. -/
inductive AstNode where
  | null
  | leaf (kind : AstLeaf) (next : AstNode)
  | one (kind : AstOne) (child next : AstNode)
  | two (kind : AstTwo) (first second next : AstNode)
  | ifStatement (condition thenBranch elseBranch next : AstNode)
  deriving DecidableEq, Repr

namespace AstNode

/-- The rest of the chain. -/
def next : AstNode → AstNode
  | null => null
  | leaf _ n => n
  | one _ _ n => n
  | two _ _ _ n => n
  | ifStatement _ _ _ n => n

/-- The number of nodes of a chain; `argument_count` and `element_count` are this number. -/
def length : AstNode → Nat
  | null => 0
  | leaf _ n => n.length + 1
  | one _ _ n => n.length + 1
  | two _ _ _ n => n.length + 1
  | ifStatement _ _ _ n => n.length + 1

/-- `ast_append`: link `node` behind the last node of the chain. -/
def append : AstNode → AstNode → AstNode
  | null, node => node
  | leaf k n, node => leaf k (n.append node)
  | one k a n, node => one k a (n.append node)
  | two k a b n, node => two k a b (n.append node)
  | ifStatement c t e n, node => ifStatement c t e (n.append node)

@[simp] theorem null_append (t : AstNode) : null.append t = t := rfl

end AstNode

end Vnt
