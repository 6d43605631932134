import Mathlib.Data.List.Sort
import Vnt.Ir.Optimize
import Vnt.Lib.Reach

/-!
# `Cfg.Build` — control-flow graphs

One block per statement or condition. A sequence is built from its last statement to its first, each
statement being told the block to go on with; a loop reserves its test block, builds the body in front of it
and then patches the test. Every block list lives in one growing array, so a block is known by its position.

Where the C code stores the position of a HIR node (`instruction`, `condition`), a block here holds the
node itself, without its siblings; `VNT_IR_NO_NODE` is `none`.
-/

namespace Vnt

open Lib

/-! ## The graph -/

inductive VntCfgTerminator where
  | fallthrough | branch | jump | returnNode | exit
  deriving DecidableEq, Repr

structure VntCfgBlock where
  instruction : Option Hir
  condition : Option Hir
  trueSuccessor : Option Nat
  falseSuccessor : Option Nat
  terminator : VntCfgTerminator
  deriving DecidableEq, Repr

structure VntCfg where
  blocks : List VntCfgBlock
  entries : List Nat
  exitBlock : Nat
  deriving DecidableEq, Repr

/-- `true_successor` and `false_successor`, where present. -/
def VntCfgBlock.successors (b : VntCfgBlock) : List Nat := b.trueSuccessor.toList ++ b.falseSuccessor.toList

/-- The block every run ends in. -/
def exitNode : VntCfgBlock := ⟨none, none, none, none, .exit⟩

/-- A block that executes `node` and goes on with `next`. -/
def straight (node : Hir) (next : Nat) (terminator : VntCfgTerminator) : VntCfgBlock :=
  ⟨some node, none, some next, none, terminator⟩

/-- A block that tests `condition`. -/
def branching (condition : Hir) (yes : Option Nat) (no : Nat) : VntCfgBlock :=
  ⟨none, some condition, yes, some no, .branch⟩

/-! ## Building -/

/-- `new_block`: the blocks with the new one, and its position. -/
def newBlock (blocks : List VntCfgBlock) (block : VntCfgBlock) : List VntCfgBlock × Nat :=
  (blocks ++ [block], blocks.length)

/-- `build_sequence`, and `build_statement` on each item; `exitBlock` is block 0. The sequence is a chain:
    what follows a node is built before the node. A `break` or `continue` without a target fails. -/
def buildSequence : Hir → Nat → Option Nat → Option Nat → List VntCfgBlock → Option (List VntCfgBlock × Nat)
  | .nil, next, _, _, blocks => some (blocks, next)
  | .leaf i op n, next, break_, continue_, blocks => do
      let (blocks, next) ← buildSequence n next break_ continue_ blocks
      match op with
      | .breakNode => do
          let target ← break_
          some (newBlock blocks (straight (.leaf i op .nil) target .jump))
      | .continueNode => do
          let target ← continue_
          some (newBlock blocks (straight (.leaf i op .nil) target .jump))
      | .struct _ _ => some (blocks, next)
      | _ => some (newBlock blocks (straight (.leaf i op .nil) next .fallthrough))
  | .one i op a n, next, break_, continue_, blocks => do
      let (blocks, next) ← buildSequence n next break_ continue_ blocks
      match op with
      | .program => buildSequence a next break_ continue_ blocks
      | .returnNode => some (newBlock blocks (straight (.one i op a .nil) 0 .returnNode))
      | .function _ _ => some (blocks, next)
      | _ => some (newBlock blocks (straight (.one i op a .nil) next .fallthrough))
  | .two i op a b n, next, break_, continue_, blocks => do
      let (blocks, next) ← buildSequence n next break_ continue_ blocks
      match op with
      | .whileNode =>
          if a = .nil then none
          else do
            let (blocks, test) := newBlock blocks (branching a.head none next)
            let (blocks, body) ← buildSequence b test (some next) (some test) blocks
            some (blocks.set test (branching a.head (some body) next), test)
      | _ => some (newBlock blocks (straight (.two i op a b .nil) next .fallthrough))
  | .ifNode _ c t e n, next, break_, continue_, blocks => do
      let (blocks, next) ← buildSequence n next break_ continue_ blocks
      if c = .nil then none
      else do
        let (blocks, yes) ← buildSequence t next break_ continue_ blocks
        let (blocks, no) ← buildSequence e next break_ continue_ blocks
        some (newBlock blocks (branching c.head (some yes) no))

/-- A `FUNCTION` node: its position, its parameters and its body. -/
structure FunctionNode where
  position : Nat
  names : List String
  body : Hir
  deriving DecidableEq, Repr

/-- The `FUNCTION` nodes of the tree, at any depth. -/
@[simp] def Hir.functionNodes : Hir → List FunctionNode
  | .nil => []
  | .leaf _ _ n => n.functionNodes
  | .one i (.function _ names) a n => ⟨i, names, a⟩ :: (a.functionNodes ++ n.functionNodes)
  | .one _ _ a n => a.functionNodes ++ n.functionNodes
  | .two _ _ a b n => a.functionNodes ++ (b.functionNodes ++ n.functionNodes)
  | .ifNode _ c t e n =>
      c.functionNodes ++ (t.functionNodes ++ (e.functionNodes ++ n.functionNodes))

/-- The order in which a scan of the arena meets them. -/
def Hir.arenaFunctions (h : Hir) : List FunctionNode :=
  h.functionNodes.insertionSort fun f g => f.position ≤ g.position

/-- The statements of the root. -/
def Hir.rootBody : Hir → Hir
  | .one _ .program a _ => a
  | _ => .nil

/-- What the graph has an entry for: the top level, then every function. -/
def Hir.bodies (h : Hir) : List Hir := h.rootBody :: h.arenaFunctions.map FunctionNode.body

/-- One entry per body. -/
def buildEntries : List Hir → List VntCfgBlock → Option (List VntCfgBlock × List Nat)
  | [], blocks => some (blocks, [])
  | body :: bodies, blocks => do
      let (blocks, entry) ← buildSequence body 0 none none blocks
      let (blocks, entries) ← buildEntries bodies blocks
      some (blocks, entry :: entries)

/-- The graph before it is simplified. -/
def buildBlocks (ir : Hir) : Option VntCfg := do
  let (blocks, entries) ← buildEntries ir.bodies [exitNode]
  some ⟨blocks, entries, 0⟩

/-! ## Simplification -/

/-- `simplify_constant_branches` on one block. -/
def simplifyBlock (b : VntCfgBlock) : VntCfgBlock :=
  match b.terminator, b.condition.bind literalCondition with
  | .branch, some literal =>
      ⟨none, none, if literal then b.trueSuccessor else b.falseSuccessor, none, .jump⟩
  | _, _ => b

/-- `simplify_constant_branches`. -/
def simplifyConstantBranches (cfg : VntCfg) : VntCfg := { cfg with blocks := cfg.blocks.map simplifyBlock }

/-- The successors of a block; `none` if one of them is not a block. -/
def VntCfg.successors (cfg : VntCfg) (at_ : Nat) : Option (List Nat) := do
  let block ← cfg.blocks[at_]?
  if block.successors.all (· < cfg.blocks.length) then some block.successors else none

/-- The marking loop of `prune_unreachable_blocks`. -/
def VntCfg.reachable (cfg : VntCfg) : Option (List Nat) :=
  if cfg.entries.all (· < cfg.blocks.length) then
    explore cfg.successors cfg.blocks.length (cfg.entries.foldl push ([], []))
  else none

/-- `map`: the new position of a kept block. -/
def renumber (kept : List Nat) (old : Nat) : Nat := kept.idxOf old

def VntCfgBlock.rename (map : Nat → Nat) (b : VntCfgBlock) : VntCfgBlock :=
  { b with trueSuccessor := b.trueSuccessor.map map, falseSuccessor := b.falseSuccessor.map map }

/-- `prune_unreachable_blocks`. -/
def pruneUnreachableBlocks (cfg : VntCfg) : Option VntCfg := do
  let marked ← cfg.reachable
  let kept := (List.range cfg.blocks.length).filter (· ∈ marked)
  if cfg.exitBlock ∈ kept then
    some
      { blocks := kept.filterMap fun old => cfg.blocks[old]?.map (VntCfgBlock.rename (renumber kept))
        entries := cfg.entries.map (renumber kept)
        exitBlock := renumber kept cfg.exitBlock }
  else none

/-! ## Validation -/

/-- What `vnt_cfg_validate` asks of the block at position `i`, among `count` blocks. -/
def validateBlock (count exitBlock i : Nat) (b : VntCfgBlock) : Bool :=
  b.successors.all (· < count) &&
    match b.terminator with
    | .branch =>
        b.condition.isSome && b.trueSuccessor.isSome && b.falseSuccessor.isSome && b.instruction.isNone
    | .exit =>
        i == exitBlock && b.instruction.isNone && b.condition.isNone && b.trueSuccessor.isNone
          && b.falseSuccessor.isNone
    | .returnNode =>
        b.instruction.isSome && b.condition.isNone && b.trueSuccessor == some exitBlock
          && b.falseSuccessor.isNone
    | .jump => b.condition.isNone && b.trueSuccessor.isSome && b.falseSuccessor.isNone
    | .fallthrough =>
        b.instruction.isSome && b.condition.isNone && b.trueSuccessor.isSome && b.falseSuccessor.isNone

/-- `vnt_cfg_validate`. -/
def vntCfgValidate (cfg : VntCfg) : Bool :=
  !cfg.blocks.isEmpty && decide (cfg.exitBlock < cfg.blocks.length) && !cfg.entries.isEmpty
    && cfg.entries.all (· < cfg.blocks.length)
    && cfg.blocks.zipIdx.all fun (b, i) => validateBlock cfg.blocks.length cfg.exitBlock i b

/-- `vnt_cfg_build`. -/
def vntCfgBuild (ir : Hir) : Option VntCfg := do
  if vntIrValidate ir then
    let cfg ← buildBlocks ir
    let cfg ← pruneUnreachableBlocks (simplifyConstantBranches cfg)
    if vntCfgValidate cfg then some cfg else none
  else none

end Vnt
