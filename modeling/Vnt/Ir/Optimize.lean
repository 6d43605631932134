import Vnt.Ir.Semantics

/-!
# `Ir.Optimize` — `vnt_ir_optimize`

Up to eight rounds of four passes over the tree: constant folding, propagation of known constants,
folding again, and simplification of constant branches and dead tails. Each pass also counts its
rewrites, since a round without a rewrite ends the loop. A pass that takes one node in the source takes a
sibling chain here and does the same to each node of it.
-/

namespace Vnt

open Lib (checkedAdd checkedSub checkedMul checkedDiv checkedMod checkedNeg)

/-- `HirConstant`. -/
inductive HirConstant where
  | integer (value : Int64)
  | boolean (value : Bool)
  | float (value : Double)
  deriving DecidableEq, Repr

/-- The literal node of a constant. -/
def HirConstant.toLeaf : HirConstant → HirLeaf
  | .integer v => .integer v
  | .boolean b => .boolean b
  | .float v => .float v

/-- `hir_constant`: the constant a node is the literal of. -/
def hirConstant : Hir → Option HirConstant
  | .leaf _ (.integer v) _ => some (.integer v)
  | .leaf _ (.boolean b) _ => some (.boolean b)
  | .leaf _ (.float v) _ => some (.float v)
  | _ => none

/-! ## Folding -/

/-- The unary half of `hir_fold_node`. -/
def foldUnary (f : FloatUnit) : UnaryOperator → HirConstant → Option HirConstant
  | .not, .boolean b => some (.boolean (!b))
  | .negate, .integer v => (checkedNeg v).map .integer
  | .negate, .float v => if f.isFinite (f.neg v) then some (.float (f.neg v)) else none
  | _, _ => none

/-- The integer case of the binary half. -/
def foldIntegers (op : BinaryOperator) (x y : Int64) : Option HirConstant :=
  match op with
  | .add => (checkedAdd x y).map .integer
  | .subtract => (checkedSub x y).map .integer
  | .multiply => (checkedMul x y).map .integer
  | .divide => (checkedDiv x y).map .integer
  | .modulo => (checkedMod x y).map .integer
  | .equal => some (.boolean (x == y))
  | .notEqual => some (.boolean (x != y))
  | .greater => some (.boolean (decide (x > y)))
  | .less => some (.boolean (decide (x < y)))
  | .greaterEqual => some (.boolean (decide (x ≥ y)))
  | .lessEqual => some (.boolean (decide (x ≤ y)))
  | .and | .or => none

/-- The boolean case. -/
def foldBooleans (op : BinaryOperator) (x y : Bool) : Option HirConstant :=
  match op with
  | .and => some (.boolean (x && y))
  | .or => some (.boolean (x || y))
  | .equal => some (.boolean (x == y))
  | .notEqual => some (.boolean (x != y))
  | _ => none

/-- Keep a float result only when it is finite. -/
def finiteFloat (f : FloatUnit) (z : Double) : Option HirConstant :=
  if f.isFinite z then some (.float z) else none

/-- The float case. -/
def foldFloats (f : FloatUnit) (op : BinaryOperator) (x y : Double) : Option HirConstant :=
  match op with
  | .add => finiteFloat f (f.add x y)
  | .subtract => finiteFloat f (f.sub x y)
  | .multiply => finiteFloat f (f.mul x y)
  | .divide => if f.isZero y then none else finiteFloat f (f.div x y)
  | .equal => some (.boolean (f.eq x y))
  | .notEqual => some (.boolean (!f.eq x y))
  | .greater => some (.boolean (f.lt y x))
  | .less => some (.boolean (f.lt x y))
  | .greaterEqual => some (.boolean (f.le y x))
  | .lessEqual => some (.boolean (f.le x y))
  | .modulo | .and | .or => none

/-- Both operands must be literals of one kind. -/
def foldBinary (f : FloatUnit) (op : BinaryOperator) : HirConstant → HirConstant → Option HirConstant
  | .integer x, .integer y => foldIntegers op x y
  | .boolean x, .boolean y => foldBooleans op x y
  | .float x, .float y => foldFloats f op x y
  | _, _ => none

/-- What a node with already folded children folds to. -/
def foldOne (f : FloatUnit) (op : HirOne) (a : Hir) : Option HirConstant :=
  match op with
  | .unary u => (hirConstant a).bind (foldUnary f u)
  | _ => none

def foldTwo (f : FloatUnit) (op : HirTwo) (a b : Hir) : Option HirConstant :=
  match op with
  | .binary u => (hirConstant a).bind fun x => (hirConstant b).bind (foldBinary f u x)
  | _ => none

/-- `hir_fold_node`. -/
def hirFoldNode (f : FloatUnit) : Hir → Hir × Nat
  | .nil => (.nil, 0)
  | .leaf i op n =>
      let n' := hirFoldNode f n
      (.leaf i op n'.1, n'.2)
  | .one i op a n =>
      let a' := hirFoldNode f a
      let n' := hirFoldNode f n
      match foldOne f op a'.1 with
      | some c => (.leaf i c.toLeaf n'.1, a'.2 + 1 + n'.2)
      | none => (.one i op a'.1 n'.1, a'.2 + n'.2)
  | .two i op a b n =>
      let a' := hirFoldNode f a
      let b' := hirFoldNode f b
      let n' := hirFoldNode f n
      match foldTwo f op a'.1 b'.1 with
      | some c => (.leaf i c.toLeaf n'.1, a'.2 + b'.2 + 1 + n'.2)
      | none => (.two i op a'.1 b'.1 n'.1, a'.2 + b'.2 + n'.2)
  | .ifNode i c t e n =>
      let c' := hirFoldNode f c
      let t' := hirFoldNode f t
      let e' := hirFoldNode f e
      let n' := hirFoldNode f n
      (.ifNode i c'.1 t'.1 e'.1 n'.1, c'.2 + t'.2 + e'.2 + n'.2)

/-! ## Propagation of known constants -/

/-- `HirConstantEnvironment`: at most one entry a name. -/
abbrev HirConstantEnvironment := List (String × HirConstant)

/-- `hir_constant_find`. -/
def hirConstantFind (env : HirConstantEnvironment) (x : String) : Option HirConstant := env.lookup x

/-- `hir_constant_invalidate`. -/
def hirConstantInvalidate (env : HirConstantEnvironment) (x : String) : HirConstantEnvironment :=
  env.filter fun p => p.1 != x

/-- `hir_constant_remember`. -/
def hirConstantRemember (env : HirConstantEnvironment) (x : String) (c : HirConstant) :
    HirConstantEnvironment := (x, c) :: hirConstantInvalidate env x

/-- `hir_contains_call`. -/
def hirContainsCall : Hir → Bool
  | .nil => false
  | .leaf _ _ n => hirContainsCall n
  | .one _ (.call _) _ _ => true
  | .one _ _ a n => hirContainsCall a || hirContainsCall n
  | .two _ _ a b n => hirContainsCall a || hirContainsCall b || hirContainsCall n
  | .ifNode _ c t e n => hirContainsCall c || hirContainsCall t || hirContainsCall e || hirContainsCall n

/-- What an assignment leaves known: a write to a variable forgets it, any other write forgets all. -/
def envAfterWrite (target : Hir) (env : HirConstantEnvironment) : HirConstantEnvironment :=
  match target with
  | .leaf _ (.variable x) _ => hirConstantInvalidate env x
  | _ => []

/-- `hir_substitute_expression`, along a chain of expressions. -/
def hirSubstituteExpression : Hir → HirConstantEnvironment → Hir × HirConstantEnvironment × Nat
  | .nil, env => (.nil, env, 0)
  | .leaf i (.variable x) n, env =>
      let n' := hirSubstituteExpression n env
      match hirConstantFind env x with
      | some c => (.leaf i c.toLeaf n'.1, n'.2.1, n'.2.2 + 1)
      | none => (.leaf i (.variable x) n'.1, n'.2)
  | .leaf i op n, env =>
      let n' := hirSubstituteExpression n env
      (.leaf i op n'.1, n'.2)
  | .one i (.call f) a n, env =>
      let a' := hirSubstituteExpression a env
      let n' := hirSubstituteExpression n []
      (.one i (.call f) a'.1 n'.1, n'.2.1, a'.2.2 + n'.2.2)
  | .one i (.unary .reference) a n, env =>
      let n' := hirSubstituteExpression n env
      (.one i (.unary .reference) a n'.1, n'.2)
  | .one i op a n, env =>
      let a' := hirSubstituteExpression a env
      let n' := hirSubstituteExpression n a'.2.1
      (.one i op a'.1 n'.1, n'.2.1, a'.2.2 + n'.2.2)
  | .two i .assign a b n, env =>
      let n' := hirSubstituteExpression n (envAfterWrite a env)
      (.two i .assign a b n'.1, n'.2)
  | .two i op a b n, env =>
      let a' := hirSubstituteExpression a env
      let b' := hirSubstituteExpression b a'.2.1
      let n' := hirSubstituteExpression n b'.2.1
      (.two i op a'.1 b'.1 n'.1, n'.2.1, a'.2.2 + b'.2.2 + n'.2.2)
  | .ifNode i c t e n, env =>
      let c' := hirSubstituteExpression c env
      let t' := hirSubstituteExpression t c'.2.1
      let e' := hirSubstituteExpression e t'.2.1
      let n' := hirSubstituteExpression n e'.2.1
      (.ifNode i c'.1 t'.1 e'.1 n'.1, n'.2.1, c'.2.2 + t'.2.2 + e'.2.2 + n'.2.2)

/-- What a declaration or a reassignment of `x` to `value` leaves known. -/
def envAfterStore (x : String) (value : Hir) (env : HirConstantEnvironment) : HirConstantEnvironment :=
  match hirConstant value with
  | some c => hirConstantRemember env x c
  | none => hirConstantInvalidate env x

/-- The end of `hir_propagate_statement` on a node with one group of children, already substituted. -/
def envAfterOne (op : HirOne) (a : Hir) (env : HirConstantEnvironment) : HirConstantEnvironment :=
  if hirContainsCall (.one 0 op a .nil) then []
  else
    match op with
    | .variableDecl x _ | .reassign x _ => envAfterStore x a env
    | _ => env

/-- The same for two groups, of which an assignment is not substituted. -/
def envAfterTwo (op : HirTwo) (a b : Hir) (env : HirConstantEnvironment) : HirConstantEnvironment :=
  if hirContainsCall (.two 0 op a b .nil) then []
  else
    match op with
    | .assign => envAfterWrite a env
    | _ => env

mutual

/-- `hir_propagate_sequence`, and `hir_propagate_statement` on each statement of it. -/
def hirPropagateSequence : Hir → HirConstantEnvironment → Hir × HirConstantEnvironment × Nat
  | .nil, env => (.nil, env, 0)
  | .leaf i (.asm text v) n, _ =>
      let n' := hirPropagateSequence n []
      (.leaf i (.asm text v) n'.1, n'.2)
  | .leaf i op n, env =>
      let n' := hirPropagateSequence n env
      (.leaf i op n'.1, n'.2)
  | .one i (.function f names) a n, env =>
      let a' := hirPropagateBody a
      let n' := hirPropagateSequence n (envAfterOne (.function f names) a'.1 env)
      (.one i (.function f names) a'.1 n'.1, n'.2.1, a'.2 + n'.2.2)
  | .one i .program a n, env =>
      let a' := hirPropagateSequence a env
      let n' := hirPropagateSequence n (envAfterOne .program a'.1 a'.2.1)
      (.one i .program a'.1 n'.1, n'.2.1, a'.2.2 + n'.2.2)
  | .one i op a n, env =>
      let a' := hirSubstituteExpression a env
      let n' := hirPropagateSequence n (envAfterOne op a'.1 a'.2.1)
      (.one i op a'.1 n'.1, n'.2.1, a'.2.2 + n'.2.2)
  | .two i .whileNode a b n, _ =>
      let n' := hirPropagateSequence n []
      (.two i .whileNode a b n'.1, n'.2)
  | .two i .assign a b n, env =>
      let n' := hirPropagateSequence n (envAfterTwo .assign a b env)
      (.two i .assign a b n'.1, n'.2)
  | .two i op a b n, env =>
      let a' := hirSubstituteExpression a env
      let b' := hirSubstituteExpression b a'.2.1
      let n' := hirPropagateSequence n (envAfterTwo op a'.1 b'.1 b'.2.1)
      (.two i op a'.1 b'.1 n'.1, n'.2.1, a'.2.2 + b'.2.2 + n'.2.2)
  | .ifNode i c t e n, env =>
      let c' := hirSubstituteExpression c env
      let t' := hirPropagateArm t c'.2.1
      let e' := hirPropagateArm e c'.2.1
      let n' := hirPropagateSequence n []
      (.ifNode i c'.1 t'.1 e'.1 n'.1, n'.2.1, c'.2.2 + t'.2 + e'.2 + n'.2.2)

/-- The children of one arm of an `IF`: each `PROGRAM` child is analysed on a copy of the facts that hold
    before the arm, the others are left alone. -/
def hirPropagateArm : Hir → HirConstantEnvironment → Hir × Nat
  | .nil, _ => (.nil, 0)
  | .one i .program a n, env =>
      let a' := hirPropagateSequence a env
      let n' := hirPropagateArm n env
      (.one i .program a'.1 n'.1, a'.2.2 + n'.2)
  | .leaf i op n, env =>
      let n' := hirPropagateArm n env
      (.leaf i op n'.1, n'.2)
  | .one i op a n, env =>
      let n' := hirPropagateArm n env
      (.one i op a n'.1, n'.2)
  | .two i op a b n, env =>
      let n' := hirPropagateArm n env
      (.two i op a b n'.1, n'.2)
  | .ifNode i c t e n, env =>
      let n' := hirPropagateArm n env
      (.ifNode i c t e n'.1, n'.2)

/-- The body of a `FUNCTION`: only a `PROGRAM` node in first position is analysed, without facts. -/
def hirPropagateBody : Hir → Hir × Nat
  | .one i .program a n =>
      let a' := hirPropagateSequence a []
      (.one i .program a'.1 n, a'.2.2)
  | h => (h, 0)

end

/-! ## Control simplification -/

/-- `hir_prune_sequence` on the children of one statement role. -/
def hirPruneSequence : Hir → Hir × Nat
  | .nil => (.nil, 0)
  | .leaf i op n =>
      if op.isExit then (.leaf i op .nil, n.length)
      else
        let n' := hirPruneSequence n
        (.leaf i op n'.1, n'.2)
  | .one i op a n =>
      if op.isExit then (.one i op a .nil, n.length)
      else
        let n' := hirPruneSequence n
        (.one i op a n'.1, n'.2)
  | .two i op a b n =>
      let n' := hirPruneSequence n
      (.two i op a b n'.1, n'.2)
  | .ifNode i c t e n =>
      let n' := hirPruneSequence n
      (.ifNode i c t e n'.1, n'.2)

/-- The literal a condition consists of. -/
def literalCondition : Hir → Option Bool
  | .leaf _ (.boolean b) _ => some b
  | _ => none

/-- `hir_simplify_control_flow`, along a chain: first below each node, then the node itself, then the
    dead tails of its statement children. -/
def hirSimplifyControlFlow : Hir → Hir × Nat
  | .nil => (.nil, 0)
  | .leaf i op n =>
      let n' := hirSimplifyControlFlow n
      (.leaf i op n'.1, n'.2)
  | .one i op a n =>
      let a' := hirSimplifyControlFlow a
      let n' := hirSimplifyControlFlow n
      match op with
      | .program | .function _ _ =>
          let p := hirPruneSequence a'.1
          (.one i op p.1 n'.1, a'.2 + p.2 + n'.2)
      | _ => (.one i op a'.1 n'.1, a'.2 + n'.2)
  | .two i op a b n =>
      let a' := hirSimplifyControlFlow a
      let b' := hirSimplifyControlFlow b
      let n' := hirSimplifyControlFlow n
      match op with
      | .whileNode =>
          match literalCondition a'.1 with
          | some false => (.one i .program .nil n'.1, a'.2 + b'.2 + 1 + n'.2)
          | _ =>
              let p := hirPruneSequence b'.1
              (.two i .whileNode a'.1 p.1 n'.1, a'.2 + b'.2 + p.2 + n'.2)
      | op => (.two i op a'.1 b'.1 n'.1, a'.2 + b'.2 + n'.2)
  | .ifNode i c t e n =>
      let c' := hirSimplifyControlFlow c
      let t' := hirSimplifyControlFlow t
      let e' := hirSimplifyControlFlow e
      let n' := hirSimplifyControlFlow n
      let below := c'.2 + t'.2 + e'.2
      match literalCondition c'.1 with
      | some b =>
          let p := hirPruneSequence (if b then t'.1 else e'.1)
          (.one i .program p.1 n'.1, below + 1 + p.2 + n'.2)
      | none =>
          let p := hirPruneSequence t'.1
          let q := hirPruneSequence e'.1
          (.ifNode i c'.1 p.1 q.1 n'.1, below + p.2 + q.2 + n'.2)

/-! ## The driver -/

/-- `hir_propagate_sequence` on the root. -/
def propagateRoot : Hir → Hir × Nat
  | .one i .program a n =>
      let a' := hirPropagateSequence a []
      (.one i .program a'.1 n, a'.2.2)
  | h => (h, 0)

/-- One round, with the number of its rewrites. -/
def optimizeRound (f : FloatUnit) (root : Hir) : Hir × Nat :=
  let folded := hirFoldNode f root
  let propagated := propagateRoot folded.1
  let refolded := hirFoldNode f propagated.1
  let simplified := hirSimplifyControlFlow refolded.1
  (simplified.1, folded.2 + propagated.2 + refolded.2 + simplified.2)

/-- At most `k` rounds; a round that changes nothing is the last. -/
def optimizeRounds (f : FloatUnit) : Nat → Hir → Hir
  | 0, root => root
  | k + 1, root =>
      let r := optimizeRound f root
      if r.2 = 0 then r.1 else optimizeRounds f k r.1

/-- `vnt_ir_optimize`; the copy into a fresh arena renumbers the nodes. -/
def vntIrOptimize (f : FloatUnit) (ir : Hir) : Option Hir :=
  if vntIrValidate ir then
    let compact := (optimizeRounds f 8 ir).number 0
    if vntIrValidate compact then some compact else none
  else none

end Vnt
