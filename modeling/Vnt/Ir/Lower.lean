import Vnt.Ir.Hir

/-!
# `Ir.Lower` — from the syntax tree to the HIR

`lower_node` copies the tree into the arena, opcode by opcode; a block that is not the body of anything
becomes a `PROGRAM` node inside its parent. Then `resolve_hir_symbols` gives each variable its storage
key: it keeps a stack of declared names, cuts it back at the end of a branch, a loop or a function, and
writes the key of the found symbol over the name.
-/

namespace Vnt

/-! ## Lowering -/

@[simp] def lowerLeaf : AstLeaf → HirLeaf
  | .structDeclaration name fields => .struct name fields
  | .breakStatement => .breakNode
  | .continueStatement => .continueNode
  | .stringLiteral text => .string text
  | .integerLiteral v => .integer v
  | .floatLiteral v => .float v
  | .booleanLiteral b => .boolean b
  | .nullLiteral => .null
  | .variable x => .variable x
  | .asmStatement text isVolatile => .asm text isVolatile

@[simp] def lowerOpcode : AstOne → HirOne
  | .program | .unsafeBlock => .program
  | .printStatement => .print
  | .functionDeclaration h => .function h.name (h.parameters.map (·.1))
  | .functionCall name => .call name
  | .returnStatement => .returnNode
  | .arrayLiteral => .array
  | .variableDeclaration name declaredType isReassignment =>
      if isReassignment then .reassign name declaredType else .variableDecl name declaredType
  | .memberExpression member => .member member
  | .unaryExpression op => .unary op

@[simp] def lowerTwo : AstTwo → HirTwo
  | .whileStatement => .whileNode
  | .indexExpression => .index
  | .assignment => .assign
  | .binaryExpression op => .binary op

/-- Whether `lower_node` lowers the child pointer as a list or as one node. -/
@[simp] def AstOne.isList : AstOne → Bool
  | .program | .unsafeBlock | .functionDeclaration _ | .functionCall _ | .arrayLiteral => true
  | _ => false

/-- `lower_list`, and `lower_node` on each item. -/
@[simp] def lowerList : AstNode → Hir
  | .null => .nil
  | .leaf kind n => .leaf 0 (lowerLeaf kind) (lowerList n)
  | .one kind child n =>
      .one 0 (lowerOpcode kind) (if kind.isList then lowerList child else (lowerList child).head)
        (lowerList n)
  | .two .whileStatement c b n => .two 0 .whileNode (lowerList c).head (lowerList b) (lowerList n)
  | .two kind a b n => .two 0 (lowerTwo kind) (lowerList a).head (lowerList b).head (lowerList n)
  | .ifStatement c t e n => .ifNode 0 (lowerList c).head (lowerList t) (lowerList e) (lowerList n)

/-! ## Symbol resolution -/

/-- `HirSymbol`. -/
structure HirSymbol where
  sourceName : String
  storageKey : String
  depth : Nat
  deriving DecidableEq, Repr

/-- `HirResolver`; the newest symbol is the head. -/
structure HirResolver where
  symbols : List HirSymbol
  nextId : Nat
  depth : Nat
  deriving DecidableEq, Repr

/-- The storage key of the symbol declared under number `id`. -/
def symbolKey (id : Nat) (name : String) : String := "__vnt_symbol_" ++ toString id ++ "_" ++ name

namespace HirResolver

/-- `resolver_find`. -/
def find (r : HirResolver) (name : String) : Option HirSymbol :=
  r.symbols.find? fun s => s.sourceName == name

/-- `resolver_declare`. -/
def declare (r : HirResolver) (name : String) : HirResolver :=
  { r with
    symbols := { sourceName := name, storageKey := symbolKey r.nextId name, depth := r.depth } :: r.symbols
    nextId := r.nextId + 1 }

/-- Remove the declarations of the current depth and below. -/
def pop (r : HirResolver) : HirResolver :=
  { r with symbols := r.symbols.dropWhile fun s => decide (s.depth ≥ r.depth) }

/-- Enter a scope. -/
def enter (r : HirResolver) : HirResolver := { r with depth := r.depth + 1 }

/-- Leave a scope, `outer` being the resolver that entered it. -/
def leave (outer r : HirResolver) : HirResolver := { r.pop with depth := outer.depth }

end HirResolver

/-- `resolver_bind_expr` along a chain. A function that is not a child of the root is left as it is. -/
@[simp] def resolverBindExpr : Hir → HirResolver → Option (Hir × HirResolver)
  | .nil, r => some (.nil, r)
  | .leaf i (.variable x) n, r => do
      let symbol ← r.find x
      let n' ← resolverBindExpr n r
      some (.leaf i (.variable symbol.storageKey) n'.1, n'.2)
  | .leaf i op n, r => do
      let n' ← resolverBindExpr n r
      some (.leaf i op n'.1, n'.2)
  | .one i (.variableDecl x t) a n, r => do
      let a' ← resolverBindExpr a r
      let n' ← resolverBindExpr n (a'.2.declare x)
      some (.one i (.variableDecl (symbolKey a'.2.nextId x) t) a'.1 n'.1, n'.2)
  | .one i (.reassign x t) a n, r => do
      let a' ← resolverBindExpr a r
      let symbol ← a'.2.find x
      let n' ← resolverBindExpr n a'.2
      some (.one i (.reassign symbol.storageKey t) a'.1 n'.1, n'.2)
  | .one i (.function f names) a n, r => do
      let n' ← resolverBindExpr n r
      some (.one i (.function f names) a n'.1, n'.2)
  | .one i op a n, r => do
      let a' ← resolverBindExpr a r
      let n' ← resolverBindExpr n a'.2
      some (.one i op a'.1 n'.1, n'.2)
  | .two i .whileNode c b n, r => do
      let c' ← resolverBindExpr c r
      let b' ← resolverBindExpr b c'.2.enter
      let n' ← resolverBindExpr n (c'.2.leave b'.2)
      some (.two i .whileNode c'.1 b'.1 n'.1, n'.2)
  | .two i op a b n, r => do
      let a' ← resolverBindExpr a r
      let b' ← resolverBindExpr b a'.2
      let n' ← resolverBindExpr n b'.2
      some (.two i op a'.1 b'.1 n'.1, n'.2)
  | .ifNode i c t e n, r => do
      let c' ← resolverBindExpr c r
      let t' ← resolverBindExpr t c'.2.enter
      let e' ← resolverBindExpr e t'.2.pop
      let n' ← resolverBindExpr n (c'.2.leave e'.2)
      some (.ifNode i c'.1 t'.1 e'.1 n'.1, n'.2)

/-- Declare the parameters of a function, and return their keys. -/
def declareNames : List String → HirResolver → List String × HirResolver
  | [], r => ([], r)
  | x :: xs, r =>
      let rest := declareNames xs (r.declare x)
      (symbolKey r.nextId x :: rest.1, rest.2)

/-- The top-level declarations, declared before anything is resolved. -/
def predeclare : Hir → HirResolver → HirResolver
  | .nil, r => r
  | .one _ (.variableDecl x _) _ n, r => predeclare n (r.declare x)
  | .leaf _ _ n, r => predeclare n r
  | .one _ _ _ n, r => predeclare n r
  | .two _ _ _ _ n, r => predeclare n r
  | .ifNode _ _ _ _ n, r => predeclare n r

/-- The second loop of `resolve_hir_symbols`, over the children of the root. -/
def resolveTop (globals : List HirSymbol) : Hir → HirResolver → Option (Hir × HirResolver)
  | .nil, r => some (.nil, r)
  | .one i (.function f names) a n, r => do
      let ps := declareNames names { r with depth := 1 }
      let a' ← resolverBindExpr a ps.2
      let base := { a'.2 with symbols := a'.2.symbols.drop (a'.2.symbols.length - r.symbols.length), depth := 0 }
      let n' ← resolveTop globals n base
      some (.one i (.function f ps.1) a'.1 n'.1, n'.2)
  | .one i (.variableDecl x t) a n, r => do
      let global ← globals.find? fun s => s.sourceName == x
      let a' ← resolverBindExpr a r
      let n' ← resolveTop globals n a'.2
      some (.one i (.variableDecl global.storageKey t) a'.1 n'.1, n'.2)
  | .leaf i op n, r => do
      let h ← resolverBindExpr (.leaf i op .nil) r
      let n' ← resolveTop globals n h.2
      some (h.1.append n'.1, n'.2)
  | .one i op a n, r => do
      let h ← resolverBindExpr (.one i op a .nil) r
      let n' ← resolveTop globals n h.2
      some (h.1.append n'.1, n'.2)
  | .two i op a b n, r => do
      let h ← resolverBindExpr (.two i op a b .nil) r
      let n' ← resolveTop globals n h.2
      some (h.1.append n'.1, n'.2)
  | .ifNode i c t e n, r => do
      let h ← resolverBindExpr (.ifNode i c t e .nil) r
      let n' ← resolveTop globals n h.2
      some (h.1.append n'.1, n'.2)

/-- `resolve_hir_symbols`. -/
def resolveHirSymbols : Hir → Option Hir
  | .one i .program a n => do
      let r := predeclare a { symbols := [], nextId := 0, depth := 0 }
      let a' ← resolveTop r.symbols.reverse a r
      some (.one i .program a'.1 n)
  | _ => none

/-- `vnt_ir_lower`. -/
def vntIrLower : AstNode → Option Hir
  | .one .program statements _ => do
      let ir ← resolveHirSymbols ((Hir.one 0 .program (lowerList statements) .nil).number 0)
      if vntIrValidate ir then some ir else none
  | _ => none

end Vnt
