import Vnt.Ir.Hir
import Vnt.Lib.CheckedInt

/-!
# `Ir.Semantics` — what a HIR program does when it runs

The evaluation order is the one `emit_expr` and `emit_stmt` of the hosted backend lay out: operands from
left to right, `&&` and `||` by jumps, array elements pushed one after the other, the object and the index
of a store before the stored value. Variables live in slots of the current frame or in global cells, a
reference is the address of such a slot, and everything the runtime library owns (strings, arrays,
objects, files, windows) is behind the `Host`.

`evals` and `execs` map a sibling chain to the list of what its nodes compute, one entry a node, so that a
parent picks the entries of its children: the only one of an operand, all of them in order for arguments
and statements. Loops and calls are bounded by a clock that is read and never spent, hence two programs
that do the same do so at every clock.
-/

namespace Vnt

open Lib (checkedAdd checkedSub checkedMul checkedDiv checkedMod checkedNeg)

/-- A variable's storage: `vnt_global_x`, or the slot of `x` in a frame. -/
inductive Addr where
  | global (key : String)
  | slot (frame : Nat) (key : String)
  deriving DecidableEq, Repr

/-- A `VntValue`. Whatever the host keeps in its own memory is `boxed`. -/
inductive Value (V : Type) where
  | null
  | int (value : Int64)
  | float (value : Double)
  | bool (value : Bool)
  | ref (addr : Addr)
  | boxed (value : V)
  deriving DecidableEq, Repr

/-- What an observer of the run sees. -/
inductive Event (V : Type) where
  | print (text : String)
  | call (name : String) (arguments : List (Value V))
  deriving DecidableEq, Repr

/-- Why a computation stops early: `exit(1)` behind a message, the end of the clock, or a node for which
    the backend emits no code. -/
inductive Stop where
  | runtimeError (message : String)
  | outOfClock
  | stuck
  deriving DecidableEq, Repr

/-- The machine state. The last two fields only watch: `unassignedReads` collects the storage that was
    read before it was assigned, `entries` the functions that were entered, each with the globals that
    were unassigned at that moment. -/
structure State (H V : Type) where
  vars : Addr → Option (Value V)
  heap : H
  frames : Nat
  trace : List (Event V)
  unassignedReads : List Addr
  entries : List (String × List String)

abbrev M (H V : Type) := EStateM Stop (State H V)

abbrev HostM (H : Type) := EStateM Stop H

/-- The operations on C doubles that the compiler and the runtime share. -/
structure FloatUnit where
  add : Double → Double → Double
  sub : Double → Double → Double
  mul : Double → Double → Double
  div : Double → Double → Double
  neg : Double → Double
  eq : Double → Double → Bool
  lt : Double → Double → Bool
  le : Double → Double → Bool
  isZero : Double → Bool
  isFinite : Double → Bool

/-- The runtime library the emitted code calls, with its own memory `H` and its own boxed values `V`.
    `unary` and `binary` are asked only for operands that `unaryValue` and `binaryValue` do not settle.
    `special` are the names `emit_call` tests before the structs (`ffi_int`, `object`, `range`), `builtin`
    is the table it looks in after them. Builtins and inline assembly may change any part of the state. -/
structure Host (H V : Type) where
  float : FloatUnit
  string : String → HostM H (Value V)
  arrayNew : HostM H (Value V)
  arrayPush : Value V → Value V → HostM H (Value V)
  arrayGet : Value V → Value V → HostM H (Value V)
  arraySet : Value V → Value V → Value V → HostM H (Value V)
  objectGet : Value V → String → HostM H (Value V)
  objectSet : Value V → String → Value V → HostM H (Value V)
  structNew : String → HostM H (Value V)
  unary : UnaryOperator → Value V → HostM H (Value V)
  binary : BinaryOperator → Value V → Value V → HostM H (Value V)
  display : Value V → H → String
  special : String → Option (List (Value V) → M H V (Value V))
  builtin : String → Option (List (Value V) → M H V (Value V))
  asm : String → Nat → M H V Unit

/-- What the code of one function knows statically, and what it calls. -/
structure Ctx (H V : Type) where
  host : Host H V
  globals : List String
  structs : List String
  params : List String
  frame : Nat
  clock : Nat
  call : String → List (Value V) → M H V (Value V)

/-- How a statement ends. -/
inductive Flow (V : Type) where
  | normal
  | breakLoop
  | continueLoop
  | returned (value : Value V)
  deriving DecidableEq, Repr

variable {H V : Type}

/-- A parameter shadows a global of the same key, everything else that is global lives in its cell. -/
def Ctx.addr (ctx : Ctx H V) (x : String) : Addr :=
  if x ∈ ctx.globals ∧ x ∉ ctx.params then .global x else .slot ctx.frame x

theorem Ctx.addr_injective (ctx : Ctx H V) {x y : String} (h : ctx.addr x = ctx.addr y) : x = y := by
  unfold Ctx.addr at h
  split at h <;> split at h <;> simp_all

/-! ## Primitive steps -/

/-- Run a host operation on the host's part of the state. -/
def liftHost {α : Type} (m : HostM H α) : M H V α := fun s =>
  match m s.heap with
  | .ok a heap => .ok a { s with heap }
  | .error e heap => .error e { s with heap }

/-- Load a slot. Unassigned storage reads as `null` and is written down. -/
def readVar (a : Addr) : M H V (Value V) := fun s =>
  match s.vars a with
  | some v => .ok v s
  | none => .ok .null { s with unassignedReads := a :: s.unassignedReads }

/-- Store to a slot. -/
def writeVar (a : Addr) (v : Value V) : M H V Unit := fun s =>
  .ok () { s with vars := fun b => if b = a then some v else s.vars b }

/-- Append to the observable trace. -/
def record (e : Event V) : M H V Unit := fun s => .ok () { s with trace := s.trace ++ [e] }

/-- `exit(1)` behind a message. -/
def fault {α : Type} (message : String) : M H V α := throw (.runtimeError message)

/-- `vnt_print`. -/
def printValue (host : Host H V) (v : Value V) : M H V Unit := fun s =>
  record (.print (host.display v s.heap)) s

/-- The only child of a node; a missing one is a node without code. -/
def first {α : Type} : List (M H V α) → M H V α
  | [] => throw .stuck
  | m :: _ => m

/-- Evaluate all entries from left to right. -/
def seqAll {α : Type} : List (M H V α) → M H V (List α)
  | [] => pure []
  | m :: ms => do
      let a ← m
      let as ← seqAll ms
      pure (a :: as)

/-- Run statements in order until one does not end normally. -/
def runSeq : List (M H V (Flow V)) → M H V (Flow V)
  | [] => pure .normal
  | m :: ms => do
      match ← m with
      | .normal => runSeq ms
      | flow => pure flow

/-! ## Operators -/

/-- A checked integer result, or the runtime error of the operation. -/
def intResult (message : String) : Option Int64 → M H V (Value V)
  | some z => pure (.int z)
  | none => fault message

/-- `vnt_add`, …, `vnt_le` on two integers; `&&` and `||` never get here. -/
def intBinary (op : BinaryOperator) (x y : Int64) : M H V (Value V) :=
  match op with
  | .add => intResult "signed 64-bit integer overflow in addition." (checkedAdd x y)
  | .subtract => intResult "signed 64-bit integer overflow in subtraction." (checkedSub x y)
  | .multiply => intResult "signed 64-bit integer overflow in multiplication." (checkedMul x y)
  | .divide =>
      if y = 0 then fault "division by zero."
      else intResult "integer overflow in division." (checkedDiv x y)
  | .modulo =>
      if y = 0 then fault "modulo by zero."
      else intResult "integer overflow in modulo." (checkedMod x y)
  | .equal => pure (.bool (x == y))
  | .notEqual => pure (.bool (x != y))
  | .greater => pure (.bool (decide (x > y)))
  | .less => pure (.bool (decide (x < y)))
  | .greaterEqual => pure (.bool (decide (x ≥ y)))
  | .lessEqual => pure (.bool (decide (x ≤ y)))
  | .and | .or => throw .stuck

/-- The same on two floats. -/
def floatBinary (f : FloatUnit) (op : BinaryOperator) (x y : Double) : M H V (Value V) :=
  match op with
  | .add => pure (.float (f.add x y))
  | .subtract => pure (.float (f.sub x y))
  | .multiply => pure (.float (f.mul x y))
  | .divide => if f.isZero y then fault "division by zero." else pure (.float (f.div x y))
  | .modulo => fault "modulo requires integers."
  | .equal => pure (.bool (f.eq x y))
  | .notEqual => pure (.bool (!f.eq x y))
  | .greater => pure (.bool (f.lt y x))
  | .less => pure (.bool (f.lt x y))
  | .greaterEqual => pure (.bool (f.le y x))
  | .lessEqual => pure (.bool (f.le x y))
  | .and | .or => throw .stuck

/-- A binary operator other than `&&` and `||` on two values. -/
def binaryValue (host : Host H V) (op : BinaryOperator) : Value V → Value V → M H V (Value V)
  | .int x, .int y => intBinary op x y
  | .float x, .float y => floatBinary host.float op x y
  | .bool x, .bool y =>
      match op with
      | .equal => pure (.bool (x == y))
      | .notEqual => pure (.bool (x != y))
      | op => liftHost (host.binary op (.bool x) (.bool y))
  | v, w => liftHost (host.binary op v w)

/-- `vnt_neg` and `vnt_not`. -/
def unaryValue (host : Host H V) : UnaryOperator → Value V → M H V (Value V)
  | .not, .bool b => pure (.bool (!b))
  | .negate, .int x => intResult "integer overflow in negation." (checkedNeg x)
  | .negate, .float x => pure (.float (host.float.neg x))
  | op, v => liftHost (host.unary op v)

/-- `vnt_truth`. -/
def truth : Value V → M H V Bool
  | .bool b => pure b
  | _ => fault "condition must be boolean."

/-- `vnt_deref`. -/
def deref : Value V → M H V (Value V)
  | .ref a => readVar a
  | _ => fault "dereference requires a reference."

/-- `vnt_ref_set`. -/
def refSet (r v : Value V) : M H V Unit :=
  match r with
  | .ref a => writeVar a v
  | _ => fault "assignment requires a reference."

/-- The operand of `&` must be a variable. -/
def reference (ctx : Ctx H V) : Hir → M H V (Value V)
  | .leaf _ (.variable x) _ => pure (.ref (ctx.addr x))
  | _ => throw .stuck

/-- Evaluate the arguments, then the call itself. -/
def applyCall (name : String) (f : List (Value V) → M H V (Value V)) (args : List (M H V (Value V))) :
    M H V (Value V) := do
  let vs ← seqAll args
  record (.call name vs)
  f vs

/-- `emit_call`. -/
def callValue (ctx : Ctx H V) (name : String) (args : List (M H V (Value V))) : M H V (Value V) :=
  match ctx.host.special name with
  | some f => applyCall name f args
  | none =>
      if name ∈ ctx.structs then liftHost (ctx.host.structNew name)
      else
        match ctx.host.builtin name with
        | some f => applyCall name f args
        | none => applyCall name (ctx.call name) args

/-- Push the elements onto a new array, each as soon as it is evaluated. -/
def pushAll (host : Host H V) : List (M H V (Value V)) → Value V → M H V (Value V)
  | [], array => pure array
  | m :: ms, array => do
      let v ← m
      let array' ← liftHost (host.arrayPush array v)
      pushAll host ms array'

/-! ## Expressions -/

/-- `emit_expr` on an opcode without children. -/
def evalLeaf (ctx : Ctx H V) : HirLeaf → M H V (Value V)
  | .string text => liftHost (ctx.host.string text)
  | .integer v => pure (.int v)
  | .float v => pure (.float v)
  | .boolean b => pure (.bool b)
  | .null => pure .null
  | .variable x => readVar (ctx.addr x)
  | .struct _ _ | .breakNode | .continueNode | .asm _ _ => throw .stuck

/-- `emit_expr` on an opcode whose children `a` compute `as`. -/
def evalOne (ctx : Ctx H V) (op : HirOne) (a : Hir) (as : List (M H V (Value V))) : M H V (Value V) :=
  match op with
  | .array => do
      let array ← liftHost ctx.host.arrayNew
      pushAll ctx.host as array
  | .call name => callValue ctx name as
  | .member name => do
      let object ← first as
      liftHost (ctx.host.objectGet object name)
  | .unary .reference => reference ctx a
  | .unary .dereference => do
      let r ← first as
      deref r
  | .unary op => do
      let v ← first as
      unaryValue ctx.host op v
  | .program | .print | .function _ _ | .returnNode | .variableDecl _ _ | .reassign _ _ => throw .stuck

/-- `emit_expr` on an opcode with two operands. -/
def evalTwo (ctx : Ctx H V) (op : HirTwo) (left right : M H V (Value V)) : M H V (Value V) :=
  match op with
  | .index => do
      let object ← left
      let index ← right
      liftHost (ctx.host.arrayGet object index)
  | .binary .and => do
      let l ← left
      if ← truth l then
        let r ← right
        let b ← truth r
        pure (.bool b)
      else pure (.bool false)
  | .binary .or => do
      let l ← left
      if ← truth l then pure (.bool true)
      else
        let r ← right
        let b ← truth r
        pure (.bool b)
  | .binary op => do
      let l ← left
      let r ← right
      binaryValue ctx.host op l r
  | .whileNode | .assign => throw .stuck

/-- What each node of a chain of expressions computes. -/
def evals (ctx : Ctx H V) : Hir → List (M H V (Value V))
  | .nil => []
  | .leaf _ op n => evalLeaf ctx op :: evals ctx n
  | .one _ op a n => evalOne ctx op a (evals ctx a) :: evals ctx n
  | .two _ op a b n => evalTwo ctx op (first (evals ctx a)) (first (evals ctx b)) :: evals ctx n
  | .ifNode _ _ _ _ n => throw .stuck :: evals ctx n

/-! ## Statements -/

/-- `emit_condition_false_branch`. -/
def condition (cs : List (M H V (Value V))) : M H V Bool := do
  let v ← first cs
  truth v

/-- `emit_assignment`, of what `value` computes. -/
def assign (ctx : Ctx H V) (target : Hir) (value : M H V (Value V)) : M H V Unit :=
  match target with
  | .leaf _ (.variable x) _ => do
      let v ← value
      writeVar (ctx.addr x) v
  | .two _ .index object index _ => do
      let o ← first (evals ctx object)
      let i ← first (evals ctx index)
      let v ← value
      let _ ← liftHost (ctx.host.arraySet o i v)
      pure ()
  | .one _ (.member name) object _ => do
      let o ← first (evals ctx object)
      let v ← value
      let _ ← liftHost (ctx.host.objectSet o name v)
      pure ()
  | .one _ (.unary .dereference) operand _ => do
      let r ← first (evals ctx operand)
      let v ← value
      refSet r v
  | _ => throw .stuck

/-- The two arms of an `IF`. -/
def branch (c : M H V Bool) (t e : M H V (Flow V)) : M H V (Flow V) := do
  if ← c then t else e

/-- A loop that may go round at most `clock` times. -/
def whileLoop (c : M H V Bool) (body : M H V (Flow V)) : Nat → M H V (Flow V)
  | 0 => do
      if ← c then throw .outOfClock
      else pure .normal
  | clock + 1 => do
      if ← c then
        match ← body with
        | .normal => whileLoop c body clock
        | .continueLoop => whileLoop c body clock
        | .breakLoop => pure .normal
        | .returned v => pure (.returned v)
      else pure .normal

/-- `emit_stmt` on an opcode without children. -/
def execLeaf (ctx : Ctx H V) : HirLeaf → M H V (Flow V)
  | .struct _ _ => pure .normal
  | .breakNode => pure .breakLoop
  | .continueNode => pure .continueLoop
  | .asm text _ => do
      ctx.host.asm text ctx.frame
      pure .normal
  | .string _ | .integer _ | .float _ | .boolean _ | .null | .variable _ => throw .stuck

/-- `emit_stmt` on an opcode whose children compute `as` as expressions and `ms` as statements. -/
def execOne (ctx : Ctx H V) (op : HirOne) (as : List (M H V (Value V))) (ms : List (M H V (Flow V))) :
    M H V (Flow V) :=
  match op with
  | .program => runSeq ms
  | .print => do
      let v ← first as
      printValue ctx.host v
      pure .normal
  | .variableDecl x _ | .reassign x _ => do
      let v ← first as
      writeVar (ctx.addr x) v
      pure .normal
  | .call name => do
      let _ ← callValue ctx name as
      pure .normal
  | .returnNode =>
      match as with
      | [] => pure (.returned .null)
      | m :: _ => do
          let v ← m
          pure (.returned v)
  | .function _ _ => pure .normal
  | .array | .member _ | .unary _ => throw .stuck

/-- `emit_stmt` on an opcode with two groups of children. -/
def execTwo (ctx : Ctx H V) (op : HirTwo) (a : Hir) (as bs : List (M H V (Value V)))
    (ms : List (M H V (Flow V))) : M H V (Flow V) :=
  match op with
  | .whileNode => whileLoop (condition as) (runSeq ms) ctx.clock
  | .assign => do
      assign ctx a (first bs)
      pure .normal
  | .index | .binary _ => throw .stuck

/-- What each node of a chain of statements does. -/
def execs (ctx : Ctx H V) : Hir → List (M H V (Flow V))
  | .nil => []
  | .leaf _ op n => execLeaf ctx op :: execs ctx n
  | .one _ op a n => execOne ctx op (evals ctx a) (execs ctx a) :: execs ctx n
  | .two _ op a b n => execTwo ctx op a (evals ctx a) (evals ctx b) (execs ctx b) :: execs ctx n
  | .ifNode _ c t e n =>
      branch (condition (evals ctx c)) (runSeq (execs ctx t)) (runSeq (execs ctx e)) :: execs ctx n

/-! ## Programs -/

/-- The chain below the `PROGRAM` root. -/
def rootChain : Hir → Hir
  | .one _ .program a _ => a
  | _ => .nil

/-- Opcodes after which a sequence does not go on. -/
def HirLeaf.isExit : HirLeaf → Bool
  | .breakNode | .continueNode => true
  | _ => false

def HirOne.isExit : HirOne → Bool
  | .returnNode => true
  | _ => false

/-- What the backend looks for among the root's children. -/
inductive Top where
  | global (x : String)
  | struct (s : String)
  | function (f : String) (names : List String) (body : Hir)
  | exit
  | other

/-- The root's children as the backend sees them. -/
def Hir.tops : Hir → List Top
  | .nil => []
  | .leaf _ (.struct s _) n => .struct s :: n.tops
  | .leaf _ op n => (if op.isExit then .exit else .other) :: n.tops
  | .one _ (.variableDecl x _) _ n => .global x :: n.tops
  | .one _ (.reassign x _) _ n => .global x :: n.tops
  | .one _ (.function f names) body n => .function f names body :: n.tops
  | .one _ op _ n => (if op.isExit then .exit else .other) :: n.tops
  | .two _ _ _ _ n => .other :: n.tops
  | .ifNode _ _ _ _ n => .other :: n.tops

def Top.globalName : Top → Option String
  | .global x => some x
  | _ => none

def Top.structName : Top → Option String
  | .struct s => some s
  | _ => none

/-- The function a top-level node declares under the name `f`. -/
def Top.functionNamed (f : String) : Top → Option (List String × Hir)
  | .function g names body => if g = f then some (names, body) else none
  | _ => none

/-- The names `vnt_emit_x86_64` gives a global cell: what the top level declares or reassigns. -/
def globalNames (h : Hir) : List String := h.tops.filterMap Top.globalName

/-- The structs the top level declares. -/
def structNames (h : Hir) : List String := h.tops.filterMap Top.structName

/-- The parameters and the body behind the label `vnt_fn_f`. -/
def findFunction (f : String) (h : Hir) : Option (List String × Hir) :=
  h.tops.findSome? (Top.functionNamed f)

/-- A new frame. The prologue stores the argument registers to the slots of all parameters, whatever was
    passed in them. -/
def enterFrame (names : List String) (args : List (Value V)) : M H V Nat := fun s =>
  .ok s.frames
    { s with
      frames := s.frames + 1
      vars := fun a =>
        match a with
        | .slot f x =>
            if f = s.frames ∧ x ∈ names then some (((names.zip args).lookup x).getD .null) else s.vars a
        | a => s.vars a }

/-- Write down which globals are unassigned as `f` is entered. -/
def watchEntry (globals : List String) (f : String) : M H V Unit := fun s =>
  .ok () { s with entries := (f, globals.filter fun x => (s.vars (.global x)).isNone) :: s.entries }

/-- The code behind `call vnt_fn_f`. Falling off the end of the body returns `null`. -/
def callUser (host : Host H V) (prog : Hir) : Nat → String → List (Value V) → M H V (Value V)
  | 0, _, _ => throw .outOfClock
  | clock + 1, f, args =>
      match findFunction f (rootChain prog) with
      | none => throw .stuck
      | some (names, body) => do
          watchEntry (globalNames (rootChain prog)) f
          let frame ← enterFrame names args
          let flow ← runSeq (execs
            { host, globals := globalNames (rootChain prog), structs := structNames (rootChain prog)
              params := names, frame, clock, call := callUser host prog clock } body)
          match flow with
          | .returned v => pure v
          | .normal => pure .null
          | .breakLoop | .continueLoop => throw .stuck

/-- What the top level runs under: frame 0, no parameters. -/
def mainCtx (host : Host H V) (prog : Hir) (clock : Nat) : Ctx H V where
  host
  globals := globalNames (rootChain prog)
  structs := structNames (rootChain prog)
  params := []
  frame := 0
  clock
  call := callUser host prog clock

/-- The memory at program start. -/
def initialState (heap : H) : State H V where
  vars := fun _ => none
  heap
  frames := 1
  trace := []
  unassignedReads := []
  entries := []

/-- The run of `main`, bounded by a clock. -/
def run (host : Host H V) (heap : H) (prog : Hir) (clock : Nat) :
    EStateM.Result Stop (State H V) (Flow V) :=
  runSeq (execs (mainCtx host prog clock) (rootChain prog)) (initialState heap)

/-- The state a run ends or stops in. -/
def finalState {α : Type} : EStateM.Result Stop (State H V) α → State H V
  | .ok _ s => s
  | .error _ s => s

/-- How a run ends. -/
inductive Ending where
  | ended
  | stopped (why : Stop)
  deriving DecidableEq, Repr

/-- What can be seen of a run: its events in order and its end. A program diverges when it runs out of
    every clock. -/
def observe {α : Type} : EStateM.Result Stop (State H V) α → List (Event V) × Ending
  | .ok _ s => (s.trace, .ended)
  | .error e s => (s.trace, .stopped e)

end Vnt
