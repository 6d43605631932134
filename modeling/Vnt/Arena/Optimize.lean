import Vnt.Arena.Node
import Vnt.Ir.Optimize

/-!
# `Arena.Optimize` — `vnt_ir_optimize` on the node array

The passes of `Ir.Optimize` as the source runs them: in place, by index, with every link read when the loop gets to
it. Folding and pruning leave nodes behind in the array; `hir_copy_node` at the end copies the nodes that are still
linked.
-/

namespace Vnt.Arena

/-- A constant as a union member and the opcode that goes with it. -/
def constantOpcode : HirConstant → VntIrOpcode
  | .integer _ => .integer
  | .boolean _ => .boolean
  | .float _ => .float

def constantValue : HirConstant → VntIrValue
  | .integer v => .integer v
  | .boolean v => .boolean v
  | .float v => .floating v

/-- The union read by the member an opcode stands for. Nodes hold the member of their opcode; any other reads as
    zero. -/
def VntIrValue.asInteger : VntIrValue → Int64
  | .integer v => v
  | _ => 0

def VntIrValue.asBoolean : VntIrValue → Bool
  | .boolean v => v
  | _ => false

def VntIrValue.asFloating : VntIrValue → Double
  | .floating v => v
  | _ => ⟨0⟩

/-- `hir_constant`. -/
def hirConstant (nodes : List VntIrNode) (index : Nat) : Option HirConstant :=
  match nodes[index]? with
  | none => none
  | some n =>
      match n.opcode with
      | some .integer => some (.integer n.value.asInteger)
      | some .boolean => some (.boolean n.value.asBoolean)
      | some .float => some (.float n.value.asFloating)
      | _ => none

/-! ## Folding -/

/-- A node turned into a literal without children. -/
def VntIrNode.folded (n : VntIrNode) (c : HirConstant) : VntIrNode :=
  { n with
    opcode := some (constantOpcode c)
    value := constantValue c
    firstChild := none
    lastChild := none
    childCount := 0 }

/-- What `hir_fold_node` makes of a node once its children are folded, `left` and `right` being the operands its loop
    has seen. -/
def foldedConstant (f : FloatUnit) (fuel : Nat) (nodes : List VntIrNode) (index : Nat) (left right : Option Nat) :
    Run (Option HirConstant) := do
  let n ← access nodes index
  if n.opcode = some .unary then
    match ← siblingRole nodes .operand fuel n.firstChild with
    | none => return none
    | some operand =>
        return do
          let value ← hirConstant nodes operand
          let op ← operator? unaryOperators n.operation
          foldUnary f op value
  else if n.opcode = some .binary then
    return do
      let x ← hirConstant nodes (← left)
      let y ← hirConstant nodes (← right)
      let op ← operator? binaryOperators n.operation
      foldBinary f op x y
  else return none

mutual

/-- `hir_fold_node`. -/
def hirFoldNode (f : FloatUnit) : Nat → List VntIrNode → Nat → Nat → Run (List VntIrNode × Nat)
  | 0, _, _, _ => throw .unfinished
  | fuel + 1, nodes, index, changed => do
      let n ← access nodes index
      let (nodes, changed, left, right) ← hirFoldChildren f fuel nodes n.firstChild changed none none
      match ← foldedConstant f fuel nodes index left right with
      | none => return (nodes, changed)
      | some c =>
          let n ← access nodes index
          return (nodes.set index (n.folded c), changed + 1)

/-- The loop of `hir_fold_node` over the children. -/
def hirFoldChildren (f : FloatUnit) : Nat → List VntIrNode → Option Nat → Nat → Option Nat → Option Nat →
    Run (List VntIrNode × Nat × Option Nat × Option Nat)
  | _, nodes, none, changed, left, right => pure (nodes, changed, left, right)
  | 0, _, some _, _, _, _ => throw .unfinished
  | fuel + 1, nodes, some c, changed, left, right => do
      let n ← access nodes c
      let left' := if n.role = some .left then some c else left
      let right' := if n.role = some .right then some c else right
      let (nodes, changed) ← hirFoldNode f fuel nodes c changed
      let n ← access nodes c
      hirFoldChildren f fuel nodes n.nextSibling changed left' right'

end

/-! ## Propagation of known constants -/

/-- `hir_replace_variable_with_constant`. -/
def VntIrNode.replaced (n : VntIrNode) (c : HirConstant) : VntIrNode :=
  { n with opcode := some (constantOpcode c), value := constantValue c }

/-- The name of a node, which the source reads without a test. -/
def VntIrNode.name (n : VntIrNode) : Run String :=
  match n.value.text? with
  | some x => .ok x
  | none => .error .nullPointer

mutual

/-- `hir_contains_call`. -/
def hirContainsCall : Nat → List VntIrNode → Nat → Run Bool
  | 0, _, _ => throw .unfinished
  | fuel + 1, nodes, index =>
      match nodes[index]? with
      | none => pure false
      | some n => if n.opcode = some .call then pure true else childrenContainCall fuel nodes n.firstChild

def childrenContainCall : Nat → List VntIrNode → Option Nat → Run Bool
  | _, _, none => pure false
  | 0, _, some _ => throw .unfinished
  | fuel + 1, nodes, some c => do
      if ← hirContainsCall fuel nodes c then return true
      let n ← access nodes c
      childrenContainCall fuel nodes n.nextSibling

end

/-- The facts after an assignment to the child `target`. -/
def envAfterTarget (nodes : List VntIrNode) (target : Option Nat) (env : HirConstantEnvironment) :
    Run HirConstantEnvironment :=
  match target with
  | none => pure []
  | some t => do
      let n ← access nodes t
      if n.opcode = some .variable then
        let x ← n.name
        return hirConstantInvalidate env x
      else return []

/-- What the propagation passes carry: the array, the known constants and the counter. -/
structure Facts where
  nodes : List VntIrNode
  env : HirConstantEnvironment
  changed : Nat

mutual

/-- `hir_substitute_expression` on a node of the array. -/
def hirSubstituteExpression : Nat → Facts → Nat → Run Facts
  | 0, _, _ => throw .unfinished
  | fuel + 1, s, index =>
      match s.nodes[index]? with
      | none => pure s
      | some n =>
          if n.opcode = some .variable then do
            let x ← n.name
            match hirConstantFind s.env x with
            | none => return s
            | some c => return { s with nodes := s.nodes.set index (n.replaced c), changed := s.changed + 1 }
          else if n.opcode = some .call then do
            let s ← substituteChildren fuel s n.firstChild
            return { s with env := [] }
          else if n.opcode = some .assign then do
            let target ← hirChildRole fuel s.nodes index .target
            let env ← envAfterTarget s.nodes target s.env
            return { s with env := env }
          else if n.opcode = some .unary ∧ operator? unaryOperators n.operation = some .reference then pure s
          else substituteChildren fuel s n.firstChild

/-- Its loops over the children. -/
def substituteChildren : Nat → Facts → Option Nat → Run Facts
  | _, s, none => pure s
  | 0, _, some _ => throw .unfinished
  | fuel + 1, s, some c => do
      let s ← hirSubstituteExpression fuel s c
      let n ← access s.nodes c
      substituteChildren fuel s n.nextSibling

end

/-- `hir_substitute_expression` on a link. -/
def substituteLink (fuel : Nat) (s : Facts) : Option Nat → Run Facts
  | none => pure s
  | some index => hirSubstituteExpression fuel s index

/-- The facts after a declaration or a reassignment. -/
def envAfterValue (nodes : List VntIrNode) (x : String) (value : Option Nat) (env : HirConstantEnvironment) :
    HirConstantEnvironment :=
  match value.bind (hirConstant nodes) with
  | some c => hirConstantRemember env x c
  | none => hirConstantInvalidate env x

mutual

/-- `hir_propagate_statement`. -/
def hirPropagateStatement : Nat → Facts → Nat → Run Facts
  | 0, _, _ => throw .unfinished
  | fuel + 1, s, index => do
      let n ← access s.nodes index
      if n.opcode = some .while ∨ n.opcode = some .asm then return { s with env := [] }
      let s ←
        if n.opcode = some .if then do
          let condition ← hirChildRole fuel s.nodes index .condition
          let s ← substituteLink fuel s condition
          let s ← propagateBranches fuel s n.firstChild
          pure { s with env := [] }
        else if n.opcode = some .function then do
          let body ← hirChildRole fuel s.nodes index .body
          match body with
          | none => pure s
          | some body => do
              let b ← access s.nodes body
              if b.opcode = some .program then do
                let inner ← hirPropagateSequence fuel { s with env := [] } body
                pure { inner with env := s.env }
              else pure s
        else if n.opcode = some .program then hirPropagateSequence fuel s index
        else if n.opcode = some .variableDecl ∨ n.opcode = some .reassign then do
          let value ← hirChildRole fuel s.nodes index .value
          let s ← substituteLink fuel s value
          let x ← n.name
          pure { s with env := envAfterValue s.nodes x value s.env }
        else if n.opcode = some .assign then do
          let target ← hirChildRole fuel s.nodes index .target
          let env ← envAfterTarget s.nodes target s.env
          pure { s with env := env }
        else substituteChildren fuel s n.firstChild
      if ← hirContainsCall fuel s.nodes index then return { s with env := [] }
      return s

/-- The loop over the arms of an `IF`: each `PROGRAM` among them starts from a copy of the facts. -/
def propagateBranches : Nat → Facts → Option Nat → Run Facts
  | _, s, none => pure s
  | 0, _, some _ => throw .unfinished
  | fuel + 1, s, some c => do
      let n ← access s.nodes c
      if (n.role = some .then ∨ n.role = some .else) ∧ n.opcode = some .program then
        let inner ← hirPropagateSequence fuel s c
        propagateBranches fuel { inner with env := s.env } n.nextSibling
      else propagateBranches fuel s n.nextSibling

/-- `hir_propagate_sequence`, for the role `STATEMENT`. -/
def hirPropagateSequence : Nat → Facts → Nat → Run Facts
  | 0, _, _ => throw .unfinished
  | fuel + 1, s, parent => do
      let p ← access s.nodes parent
      propagateStatements fuel s p.firstChild

/-- Its loop. -/
def propagateStatements : Nat → Facts → Option Nat → Run Facts
  | _, s, none => pure s
  | 0, _, some _ => throw .unfinished
  | fuel + 1, s, some c => do
      let n ← access s.nodes c
      if n.role = some .statement then
        let s ← hirPropagateStatement fuel s c
        propagateStatements fuel s n.nextSibling
      else propagateStatements fuel s n.nextSibling

end

/-! ## Control simplification -/

/-- `statement_role`. -/
def statementRole (role : Option VntIrEdgeRole) : Bool :=
  role = some .statement || role = some .then || role = some .else || role = some .body

/-- `RETURN`, `BREAK` and `CONTINUE`. -/
def VntIrNode.isExit (n : VntIrNode) : Bool :=
  n.opcode = some .return || n.opcode = some .break || n.opcode = some .continue

/-- The variables of the loop in `hir_prune_sequence`; `terminated` lists the roles that have ended. -/
structure Pruning where
  nodes : List VntIrNode
  first : Option Nat
  last : Option Nat
  kept : Nat
  terminated : List (Option VntIrEdgeRole)
  changed : Nat

/-- `ir->nodes[last].next_sibling = next`, when there is a last one. -/
def linkAfter (nodes : List VntIrNode) (last next : Option Nat) : Run (List VntIrNode) :=
  match last with
  | none => pure nodes
  | some last => do
      let n ← access nodes last
      pure (nodes.set last { n with nextSibling := next })

/-- The loop of `hir_prune_sequence`. -/
def pruneLoop : Nat → Pruning → Option Nat → Run Pruning
  | _, s, none => pure s
  | 0, _, some _ => throw .unfinished
  | fuel + 1, s, some current => do
      let child ← access s.nodes current
      if statementRole child.role && s.terminated.contains child.role then
        pruneLoop fuel { s with changed := s.changed + 1 } child.nextSibling
      else
        let nodes ← linkAfter s.nodes s.last (some current)
        let terminated :=
          if statementRole child.role && child.isExit then child.role :: s.terminated else s.terminated
        pruneLoop fuel ⟨nodes, s.first.or (some current), some current, s.kept + 1, terminated, s.changed⟩
          child.nextSibling

/-- `hir_prune_sequence`. -/
def hirPruneSequence (fuel : Nat) (nodes : List VntIrNode) (parent : Nat) (changed : Nat) :
    Run (List VntIrNode × Nat) := do
  let p ← access nodes parent
  let s ← pruneLoop fuel ⟨nodes, none, none, 0, [], changed⟩ p.firstChild
  let nodes ← linkAfter s.nodes s.last none
  let p ← access nodes parent
  return (nodes.set parent { p with firstChild := s.first, lastChild := s.last, childCount := s.kept }, s.changed)

/-- The loop that looks for the first and the last child in the chosen branch. -/
def chosenRange (nodes : List VntIrNode) (chosen : VntIrEdgeRole) :
    Nat → Option Nat → Option Nat → Option Nat → Nat → Run (Option Nat × Option Nat × Nat)
  | _, none, first, last, count => pure (first, last, count)
  | 0, some _, _, _, _ => throw .unfinished
  | fuel + 1, some c, first, last, count => do
      let n ← access nodes c
      if n.role ≠ some chosen then chosenRange nodes chosen fuel n.nextSibling first last count
      else chosenRange nodes chosen fuel n.nextSibling (first.or (some c)) (some c) (count + 1)

/-- The loop that turns the chosen children into statements. -/
def makeStatements : Nat → List VntIrNode → Option Nat → Run (List VntIrNode)
  | _, nodes, none => pure nodes
  | 0, _, some _ => throw .unfinished
  | fuel + 1, nodes, some c => do
      let n ← access nodes c
      makeStatements fuel (nodes.set c { n with role := some .statement }) n.nextSibling

/-- The literal in the condition of a node. -/
def constantCondition (fuel : Nat) (nodes : List VntIrNode) (index : Nat) : Run (Option Bool) := do
  match ← hirChildRole fuel nodes index .condition with
  | none => return none
  | some c =>
      let n ← access nodes c
      return if n.opcode = some .boolean then some n.value.asBoolean else none

/-- What `hir_simplify_control_flow` does to the node itself, before it prunes. -/
def simplifyNode (fuel : Nat) (nodes : List VntIrNode) (index : Nat) (changed : Nat) : Run (List VntIrNode × Nat) := do
  let n ← access nodes index
  if n.opcode = some .if then
    match ← constantCondition fuel nodes index with
    | none => return (nodes, changed)
    | some condition =>
        let chosen := if condition then VntIrEdgeRole.then else .else
        let (first, last, count) ← chosenRange nodes chosen fuel n.firstChild none none 0
        let nodes ← linkAfter nodes last none
        let nodes ← makeStatements fuel nodes first
        let n ← access nodes index
        return (nodes.set index
          { n with opcode := some .program, firstChild := first, lastChild := last, childCount := count }, changed + 1)
  else if n.opcode = some .while then
    match ← constantCondition fuel nodes index with
    | some false =>
        return (nodes.set index
          { n with opcode := some .program, firstChild := none, lastChild := none, childCount := 0 }, changed + 1)
    | _ => return (nodes, changed)
  else return (nodes, changed)

mutual

/-- `hir_simplify_control_flow`. -/
def hirSimplifyControlFlow : Nat → List VntIrNode → Nat → Nat → Run (List VntIrNode × Nat)
  | 0, _, _, _ => throw .unfinished
  | fuel + 1, nodes, index, changed => do
      let n ← access nodes index
      let (nodes, changed) ← simplifyChildren fuel nodes n.firstChild changed
      let (nodes, changed) ← simplifyNode fuel nodes index changed
      hirPruneSequence fuel nodes index changed

def simplifyChildren : Nat → List VntIrNode → Option Nat → Nat → Run (List VntIrNode × Nat)
  | _, nodes, none, changed => pure (nodes, changed)
  | 0, _, some _, _ => throw .unfinished
  | fuel + 1, nodes, some c, changed => do
      let n ← access nodes c
      let (nodes, changed) ← hirSimplifyControlFlow fuel nodes c changed
      simplifyChildren fuel nodes n.nextSibling changed

end

/-! ## Compaction -/

/-- `copy_text`: a copy, empty for `NULL`. -/
def copyText (source : Option String) : Option String := some (source.getD "")

/-- The fields `hir_copy_node` copies into the fresh node. -/
def copiedNode (src : VntIrNode) : VntIrNode where
  opcode := src.opcode
  role := src.role
  operation := src.operation
  names := if src.nameCount = 0 then none else src.names.map fun l => (l.take src.nameCount).map copyText
  nameCount := src.nameCount
  typeName := src.typeName.map fun t => (copyText (some t)).getD ""
  firstChild := none
  lastChild := none
  nextSibling := none
  childCount := 0
  value :=
    match src.opcode with
    | some op => if op.hasText then .text (copyText src.value.text?) else src.value
    | none => src.value
  names_size := by
    intro l h
    split at h
    · cases h
    · obtain ⟨l', hl', rfl⟩ := Option.map_eq_some_iff.mp h
      have := src.names_size l' hl'
      simp only [List.length_map, List.length_take]
      omega

mutual

/-- `hir_copy_node`: the copy behind `out`, and its index. -/
def hirCopyNode : Nat → List VntIrNode → List VntIrNode → Nat → Run (Option (List VntIrNode × Nat))
  | 0, _, _, _ => throw .unfinished
  | fuel + 1, old, out, index => do
      match old[index]? with
      | none => return none
      | some src =>
          let (out, k) := reserveNode out
          let out := out.set k (copiedNode src)
          match ← copyChildren fuel old out k src.firstChild with
          | none => return none
          | some out => return some (out, k)

/-- Its loop over the children of the source node. -/
def copyChildren : Nat → List VntIrNode → List VntIrNode → Nat → Option Nat → Run (Option (List VntIrNode))
  | _, _, out, _, none => pure (some out)
  | 0, _, _, _, some _ => throw .unfinished
  | fuel + 1, old, out, k, some c => do
      match ← hirCopyNode fuel old out c with
      | none => return none
      | some (out, copied) =>
          match ← addChild out k copied with
          | none => return none
          | some out =>
              let n ← access old c
              copyChildren fuel old out k n.nextSibling

end

/-! ## The optimizer -/

/-- One round, and its number of rewrites. -/
def optimizeRound (f : FloatUnit) (fuel : Nat) (ir : VntIrProgram) : Run (VntIrProgram × Nat) := do
  let (nodes, changed) ← hirFoldNode f fuel ir.nodes ir.root 0
  let s ← hirPropagateSequence fuel ⟨nodes, [], changed⟩ ir.root
  let (nodes, changed) ← hirFoldNode f fuel s.nodes ir.root s.changed
  let (nodes, changed) ← hirSimplifyControlFlow fuel nodes ir.root changed
  return ({ ir with nodes := nodes }, changed)

/-- At most the given number of rounds, until one without a rewrite. -/
def optimizeRounds (f : FloatUnit) (fuel : Nat) : Nat → VntIrProgram → Run VntIrProgram
  | 0, ir => pure ir
  | k + 1, ir => do
      let (ir, changed) ← optimizeRound f fuel ir
      if changed = 0 then return ir
      optimizeRounds f fuel k ir

/-- `vnt_ir_optimize`: its result, and the program after it. -/
def vntIrOptimize (f : FloatUnit) (fuel : Nat) (ir : VntIrProgram) : Run (Bool × VntIrProgram) := do
  if ← vntIrValidate fuel ir then
    let ir ← optimizeRounds f fuel 8 ir
    match ← hirCopyNode fuel ir.nodes [] ir.root with
    | none => return (false, ir)
    | some (nodes, root) =>
        let compact : VntIrProgram := ⟨nodes, root⟩
        return (← vntIrValidate fuel compact, compact)
  else return (false, ir)

end Vnt.Arena
