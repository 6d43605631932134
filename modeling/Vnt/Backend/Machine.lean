import Vnt.Ir.Semantics
import Vnt.Lib.Jumps
import Vnt.Runtime.Equality

/-!
# `Backend.Machine` — the part of the processor that hosted expression code uses

A register or a stack word holds a `VntValue *`, a number, or something that only a call of the runtime library looks at.
What a value points at is the `Value` of the semantics, so the tag and the payload that inline code reads from memory are
functions of it. After a call nothing is left in the registers a callee may change, in the home area of the call, or in
the flags; an instruction that would need one of these is stuck, and so is a call on a stack that is not aligned.
-/

namespace Vnt

open Lib (Processor)
open Vnt.Runtime (VntType)

/-- The tag of a boxed value. -/
inductive BoxedType where
  | null
  | string
  | array
  | bytes
  | object
  | process
  | pointer
  deriving DecidableEq, Repr

def BoxedType.type : BoxedType → VntType
  | .null => .null
  | .string => .string
  | .array => .array
  | .bytes => .bytes
  | .object => .object
  | .process => .process
  | .pointer => .pointer

/-- The position of a tag in the enumeration. -/
def tagNumber : VntType → Nat
  | .null => 0
  | .int => 1
  | .float => 2
  | .bool => 3
  | .string => 4
  | .array => 5
  | .bytes => 6
  | .object => 7
  | .process => 8
  | .reference => 9
  | .pointer => 10

/-- The word at offset 0 of what a `VntValue *` points at; the null pointer points at nothing. -/
def Value.tag {V : Type} (boxed : V → BoxedType) : Value V → Option Nat
  | .null => none
  | .int _ => some (tagNumber .int)
  | .float _ => some (tagNumber .float)
  | .bool _ => some (tagNumber .bool)
  | .ref _ => some (tagNumber .reference)
  | .boxed v => some (tagNumber (boxed v).type)

inductive Reg where
  | rax
  | rcx
  | rdx
  | r10
  | r11
  | xmm0
  deriving DecidableEq, Repr

/-- What a register or a word of the stack holds. -/
inductive Word (V : Type) where
  | pointer (value : Value V)
  | number (x : Int64)
  | double (x : Double)
  | text (s : String)
  | slot (a : Addr)
  | junk

/-- The flags that conditional jumps test. -/
structure Flags where
  zf : Bool
  sf : Bool
  of : Bool

/-- The stack grows to the left. `base` is the number of words from an address divisible by 16 to its bottom. -/
structure Cpu (V : Type) where
  regs : Reg → Word V
  stack : List (Word V)
  base : Nat
  flags : Option Flags

/-- The three operations with inline code. -/
inductive Arithmetic where
  | add
  | sub
  | mul
  deriving DecidableEq, Repr

/-- The second operand of an arithmetic instruction: an immediate of 32 bits, or `8(%r)`. -/
inductive Source where
  | immediate (x : Int32)
  | payload (r : Reg)

/-- The functions of the runtime library that `emit_expr` calls. -/
inductive Callee where
  | vntInt
  | vntBool
  | vntFloat
  | vntString
  | vntArrayNew
  | vntArrayPush
  | vntArrayGet
  | vntObjectGet
  | vntRef
  | vntDeref
  | vntUnary (op : UnaryOperator)
  | vntBinary (op : BinaryOperator)
  | vntTruth

/-- The instructions of `emit_expr`. `call` stands for the code of `emit_call`, and `fail` for a node without code. -/
inductive Instr (H V : Type) where
  | movNumber (x : Int64) (dst : Reg)
  | movDouble (x : Double) (dst : Reg)
  | zero (dst : Reg)
  | leaText (s : String) (dst : Reg)
  | leaSlot (a : Addr) (dst : Reg)
  | load (a : Addr) (dst : Reg)
  | mov (src dst : Reg)
  | movPayload (src dst : Reg)
  | push (src : Reg)
  | pop (dst : Reg)
  | top (dst : Reg)
  | drop
  | test (r : Reg)
  | testAlign
  | cmpTag (r : Reg)
  | cmp (x : Int32) (r : Reg)
  | arith (op : Arithmetic) (src : Source) (dst : Reg)
  | reserve (words : Nat)
  | release (words : Nat)
  | callRuntime (f : Callee)
  | call (code : M H V (Value V))
  | fail

inductive Cond where
  | z
  | nz
  | o
  | l
  | le
  | g
  | ge
  deriving DecidableEq, Repr

variable {H V : Type}

namespace Cpu

def set (cpu : Cpu V) (r : Reg) (w : Word V) : Cpu V := { cpu with regs := fun q => if q = r then w else cpu.regs q }

def setFlags (cpu : Cpu V) (flags : Flags) : Cpu V := { cpu with flags := some flags }

/-- After a call: a result in `%rax`, and nothing in whatever a callee may change. -/
def afterCall (cpu : Cpu V) (w : Word V) : Cpu V :=
  { cpu with
    regs := fun q => if q = .rax then w else .junk
    stack := List.replicate 4 .junk ++ cpu.stack.drop 4
    flags := none }

/-- `%rsp` is divisible by 16. -/
def aligned (cpu : Cpu V) : Bool := (cpu.base + cpu.stack.length) % 2 == 0

end Cpu

/-- What `test %r,%r` finds out. -/
def Word.isZero : Word V → Option Bool
  | .pointer .null => some true
  | .pointer _ => some false
  | .number x => some (x == 0)
  | _ => none

/-- The result of an arithmetic instruction, and the exact one. -/
def Arithmetic.apply (op : Arithmetic) (x y : Int64) : Int64 × Int :=
  match op with
  | .add => (x + y, x.toInt + y.toInt)
  | .sub => (x - y, x.toInt - y.toInt)
  | .mul => (x * y, x.toInt * y.toInt)

/-- The flags of a result; `of` says that it is not the exact one. -/
def flagsOf (result : Int64 × Int) : Flags where
  zf := result.1 == 0
  sf := decide (result.1 < 0)
  of := decide (result.1.toInt ≠ result.2)

/-- A function of the runtime library on its arguments in `%rcx` and `%rdx` (`%xmm0` for a double). -/
def Callee.run (host : Host H V) (f : Callee) (cpu : Cpu V) : M H V (Word V) :=
  let value (m : M H V (Value V)) : M H V (Word V) := do
    let v ← m
    pure (.pointer v)
  match f, cpu.regs .rcx, cpu.regs .rdx with
  | .vntInt, .number x, _ => pure (.pointer (.int x))
  | .vntBool, .number x, _ => pure (.pointer (.bool (x != 0)))
  | .vntFloat, _, _ =>
      match cpu.regs .xmm0 with
      | .double x => pure (.pointer (.float x))
      | _ => throw .stuck
  | .vntString, .text s, _ => value (liftHost (host.string s))
  | .vntArrayNew, _, _ => value (liftHost host.arrayNew)
  | .vntArrayPush, .pointer array, .pointer item => value (liftHost (host.arrayPush array item))
  | .vntArrayGet, .pointer object, .pointer index => value (liftHost (host.arrayGet object index))
  | .vntObjectGet, .pointer object, .text key => value (liftHost (host.objectGet object key))
  | .vntRef, .slot a, _ => pure (.pointer (.ref a))
  | .vntDeref, .pointer r, _ => value (deref r)
  | .vntUnary op, .pointer v, _ => value (unaryValue host op v)
  | .vntBinary op, .pointer v, .pointer w => value (binaryValue host op v w)
  | .vntTruth, .pointer v, _ => do
      let b ← truth v
      pure (.number (if b then 1 else 0))
  | _, _, _ => throw .stuck

/-- The number a source operand stands for. An immediate is sign-extended. -/
def Source.read (src : Source) (cpu : Cpu V) : Option Int64 :=
  match src with
  | .immediate x => some x.toInt64
  | .payload r =>
      match cpu.regs r with
      | .pointer (.int x) => some x
      | _ => none

/-- One instruction. -/
@[simp] def step (host : Host H V) (boxed : V → BoxedType) (i : Instr H V) (cpu : Cpu V) : M H V (Cpu V) :=
  match i with
  | .movNumber x dst => pure (cpu.set dst (.number x))
  | .movDouble x dst => pure (cpu.set dst (.double x))
  | .zero dst => pure (cpu.set dst (.pointer .null))
  | .leaText s dst => pure (cpu.set dst (.text s))
  | .leaSlot a dst => pure (cpu.set dst (.slot a))
  | .load a dst => do
      let v ← readVar a
      pure (cpu.set dst (.pointer v))
  | .mov src dst => pure (cpu.set dst (cpu.regs src))
  | .movPayload src dst =>
      match cpu.regs src with
      | .pointer (.int x) => pure (cpu.set dst (.number x))
      | _ => throw .stuck
  | .push src => pure { cpu with stack := cpu.regs src :: cpu.stack }
  | .pop dst =>
      match cpu.stack with
      | w :: stack => pure { cpu.set dst w with stack }
      | [] => throw .stuck
  | .top dst =>
      match cpu.stack with
      | w :: _ => pure (cpu.set dst w)
      | [] => throw .stuck
  | .drop =>
      match cpu.stack with
      | _ :: stack => pure { cpu with stack }
      | [] => throw .stuck
  -- Of a `test` and of the comparison of a tag only ZF is looked at.
  | .test r =>
      match (cpu.regs r).isZero with
      | some zf => pure (cpu.setFlags ⟨zf, false, false⟩)
      | none => throw .stuck
  | .testAlign => pure (cpu.setFlags ⟨cpu.aligned, false, false⟩)
  | .cmpTag r =>
      match cpu.regs r with
      | .pointer v =>
          match v.tag boxed with
          | some tag => pure (cpu.setFlags ⟨tag == tagNumber .int, false, false⟩)
          | none => throw .stuck
      | _ => throw .stuck
  | .cmp x r =>
      match cpu.regs r with
      | .number y => pure (cpu.setFlags (flagsOf (Arithmetic.sub.apply y x.toInt64)))
      | _ => throw .stuck
  | .arith op src dst =>
      match cpu.regs dst, src.read cpu with
      | .number x, some y => pure ((cpu.set dst (.number (op.apply x y).1)).setFlags (flagsOf (op.apply x y)))
      | _, _ => throw .stuck
  | .reserve words => pure { cpu with stack := List.replicate words .junk ++ cpu.stack }
  | .release words => pure { cpu with stack := cpu.stack.drop words }
  | .callRuntime f => do
      if !cpu.aligned then throw .stuck
      let w ← f.run host cpu
      pure (cpu.afterCall w)
  | .call code => do
      let v ← code
      pure { cpu with regs := fun q => if q = .rax then .pointer v else .junk, flags := none }
  | .fail => throw .stuck

def Cond.holds (c : Cond) (flags : Flags) : Bool :=
  match c with
  | .z => flags.zf
  | .nz => !flags.zf
  | .o => flags.of
  | .l => flags.sf != flags.of
  | .le => flags.zf || flags.sf != flags.of
  | .g => !(flags.zf || flags.sf != flags.of)
  | .ge => flags.sf == flags.of

/-- The processor, with the runtime library behind its calls. -/
def processor (host : Host H V) (boxed : V → BoxedType) : Processor Stop (State H V) (Instr H V) Cond (Cpu V) where
  step := step host boxed
  taken c cpu :=
    match cpu.flags with
    | some flags => pure (c.holds flags)
    | none => throw .stuck

/-!
## The code of an expression (`x86_backend.c`)

`emits` maps a chain of nodes to the code of each, as `evals` maps it to what each computes. Operands leave their value in
`%rax`; what has to outlive the evaluation of another operand is pushed. Addition, subtraction and multiplication first
look at the tags of their operands and compute on the payloads of two integers themselves.
-/

open Lib (Asm Line)

abbrev Code (H V : Type) := Asm (Instr H V) Cond

/-- Lines of text, `.inl` an instruction. -/
def text (is : List (Instr H V)) : Code H V := Asm.lines (is.map Line.instr)

def jumpTo (l : Nat) : Code H V := Asm.lines [.jump l]

def jumpIf (c : Cond) (l : Nat) : Code H V := Asm.lines [.branch c l]

/-- `label_emit`. -/
def labelEmit (l : Nat) : Code H V := Asm.lines [.label l]

/-- `call0`: the stack is moved to an address divisible by 16, with 32 bytes for the callee. -/
def call0 (f : Callee) : Code H V :=
  Asm.withLabels fun aligned done =>
    text [.testAlign] ++ jumpIf .z aligned ++
    text [.reserve 5, .callRuntime f, .release 5] ++ jumpTo done ++
    labelEmit aligned ++ text [.reserve 4, .callRuntime f, .release 4] ++
    labelEmit done

/-- The operand code of a parent: the only child, or no code. -/
def firstCode : List (Code H V) → Code H V
  | [] => text [.fail]
  | a :: _ => a

/-- The literal that a node is, if it is an integer of 32 bits. -/
def shortLiteral : Hir → Option Int32
  | .leaf _ (.integer x) _ =>
      if Int32.minValue.toInt ≤ x.toInt ∧ x.toInt ≤ Int32.maxValue.toInt then some x.toInt32 else none
  | _ => none

/-- The operators with inline code. -/
def arithmetic : BinaryOperator → Option Arithmetic
  | .add => some .add
  | .subtract => some .sub
  | .multiply => some .mul
  | _ => none

/-- The inline operation on the operand in `%rax`, which is pushed, and on a literal. -/
def inlineLiteral (inline : Arithmetic) (x : Int32) (slow : Nat) : Code H V :=
  text [.push .rax, .top .r11, .test .r11] ++ jumpIf .z slow ++
  text [.cmpTag .r11] ++ jumpIf .nz slow ++
  text [.movPayload .r11 .r10, .arith inline (.immediate x) .r10] ++ jumpIf .o slow

/-- `emit_expr` on `VNT_IR_BINARY`, with a literal on the right. -/
def emitLiteral (op : BinaryOperator) (inline : Arithmetic) (x : Int32) (left right : Code H V) : Code H V :=
  Asm.withLabels fun slow done =>
    left ++ inlineLiteral inline x slow ++
    text [.mov .r10 .rcx, .drop] ++ call0 .vntInt ++ jumpTo done ++
    labelEmit slow ++ right ++ text [.mov .rax .rdx, .pop .rcx] ++ call0 (.vntBinary op) ++
    labelEmit done

/-- Both operands, the left one in `%rcx` and the right one in `%rdx`. -/
def emitOperands (left right : Code H V) : Code H V :=
  left ++ text [.push .rax] ++ right ++ text [.mov .rax .rdx, .pop .rcx]

/-- The inline operation on `%rcx` and `%rdx`. -/
def inlineOperands (inline : Arithmetic) (slow : Nat) : Code H V :=
  text [.test .rcx] ++ jumpIf .z slow ++ text [.test .rdx] ++ jumpIf .z slow ++
  text [.cmpTag .rcx] ++ jumpIf .nz slow ++ text [.cmpTag .rdx] ++ jumpIf .nz slow ++
  text [.movPayload .rcx .r10, .arith inline (.payload .rdx) .r10] ++ jumpIf .o slow

/-- `emit_expr` on `VNT_IR_BINARY`, the inline code for two operands of any kind. -/
def emitGuarded (op : BinaryOperator) (inline : Arithmetic) : Code H V :=
  Asm.withLabels fun slow done =>
    inlineOperands inline slow ++ text [.mov .r10 .rcx] ++ call0 .vntInt ++ jumpTo done ++
    labelEmit slow ++ call0 (.vntBinary op) ++
    labelEmit done

/-- `&&` and `||`. -/
def emitShort (leave : Cond) (result : Int64) (left right : Code H V) : Code H V :=
  Asm.withLabels fun short done =>
    left ++ text [.mov .rax .rcx] ++ call0 .vntTruth ++ text [.test .rax] ++ jumpIf leave short ++
    right ++ text [.mov .rax .rcx] ++ call0 .vntTruth ++ text [.mov .rax .rcx] ++ call0 .vntBool ++ jumpTo done ++
    labelEmit short ++ text [.movNumber result .rcx] ++ call0 .vntBool ++
    labelEmit done

/-- `emit_expr` on `VNT_IR_BINARY`. `b` is the right child. -/
def emitBinary (op : BinaryOperator) (b : Hir) (left right : Code H V) : Code H V :=
  match op with
  | .and => emitShort .z 0 left right
  | .or => emitShort .nz 1 left right
  | op =>
      match arithmetic op, shortLiteral b with
      | some inline, some x => emitLiteral op inline x left right
      | some inline, none => emitOperands left right ++ emitGuarded op inline
      | none, _ => emitOperands left right ++ call0 (.vntBinary op)

/-- The elements of an array literal, each pushed onto the array in `%rax`. -/
def emitElements : List (Code H V) → Code H V
  | [] => text []
  | a :: as =>
      text [.push .rax] ++ a ++ text [.mov .rax .rdx, .pop .rcx] ++ call0 .vntArrayPush ++ emitElements as

/-- `emit_expr` on an opcode without children. -/
def emitLeaf (ctx : Ctx H V) : HirLeaf → Code H V
  | .integer x => text [.movNumber x .rcx] ++ call0 .vntInt
  | .boolean b => text [.movNumber (if b then 1 else 0) .rcx] ++ call0 .vntBool
  | .null => text [.zero .rax]
  | .float x => text [.movDouble x .xmm0] ++ call0 .vntFloat
  | .string s => text [.leaText s .rcx] ++ call0 .vntString
  | .variable x => text [.load (ctx.addr x) .rax]
  | .struct _ _ | .breakNode | .continueNode | .asm _ _ => text [.fail]

/-- The operand of `&`. -/
def emitReference (ctx : Ctx H V) : Hir → Code H V
  | .leaf _ (.variable x) _ => text [.leaSlot (ctx.addr x) .rcx] ++ call0 .vntRef
  | _ => text [.fail]

/-- `emit_expr` on an opcode whose children `a` have the code `as`. The code of a call is that of `emit_call`. -/
def emitOne (ctx : Ctx H V) (op : HirOne) (a : Hir) (as : List (Code H V)) : Code H V :=
  match op with
  | .array => call0 .vntArrayNew ++ emitElements as
  | .call name => text [.call (callValue ctx name (evals ctx a))]
  | .member name => firstCode as ++ text [.push .rax, .leaText name .rdx, .pop .rcx] ++ call0 .vntObjectGet
  | .unary .reference => emitReference ctx a
  | .unary .dereference => firstCode as ++ text [.mov .rax .rcx] ++ call0 .vntDeref
  | .unary op => firstCode as ++ text [.mov .rax .rcx] ++ call0 (.vntUnary op)
  | .program | .print | .function _ _ | .returnNode | .variableDecl _ _ | .reassign _ _ => text [.fail]

/-- `emit_expr` on an opcode with two operands. -/
def emitTwo (op : HirTwo) (b : Hir) (left right : Code H V) : Code H V :=
  match op with
  | .index => emitOperands left right ++ call0 .vntArrayGet
  | .binary op => emitBinary op b left right
  | .whileNode | .assign => text [.fail]

/-- The code of each node of a chain of expressions. -/
def emits (ctx : Ctx H V) : Hir → List (Code H V)
  | .nil => []
  | .leaf _ op n => emitLeaf ctx op :: emits ctx n
  | .one _ op a n => emitOne ctx op a (emits ctx a) :: emits ctx n
  | .two _ op a b n => emitTwo op b (firstCode (emits ctx a)) (firstCode (emits ctx b)) :: emits ctx n
  | .ifNode _ _ _ _ n => text [.fail] :: emits ctx n

/-- The jump to `false_label` after the inline comparison, for the comparisons among the operators. -/
def falseBranch : BinaryOperator → Option Cond
  | .equal => some .nz
  | .notEqual => some .z
  | .greater => some .le
  | .less => some .ge
  | .greaterEqual => some .l
  | .lessEqual => some .g
  | _ => none

/-- A condition that compares a variable with a literal: where the variable is, the literal, and the jump. -/
def comparison (ctx : Ctx H V) : Hir → Option (Addr × Int32 × Cond)
  | .two _ (.binary op) (.leaf _ (.variable x) _) b _ =>
      match shortLiteral b, falseBranch op with
      | some literal, some leave => some (ctx.addr x, literal, leave)
      | _, _ => none
  | _ => none

/-- The condition as an expression, and its truth. -/
def emitTruth (ctx : Ctx H V) (condition : Hir) (falseLabel : Nat) : Code H V :=
  firstCode (emits ctx condition) ++ text [.mov .rax .rcx] ++ call0 .vntTruth ++ text [.test .rax] ++ jumpIf .z falseLabel

/-- The inline comparison of a variable with a literal. -/
def inlineComparison (a : Addr) (literal : Int32) (slow : Nat) : Code H V :=
  text [.load a .rax, .mov .rax .r11, .test .r11] ++ jumpIf .z slow ++
  text [.cmpTag .r11] ++ jumpIf .nz slow ++
  text [.movPayload .r11 .rax, .cmp literal .rax]

/-- `emit_condition_false_branch`. -/
def emitConditionFalseBranch (ctx : Ctx H V) (condition : Hir) (falseLabel : Nat) : Code H V :=
  match comparison ctx condition with
  | some (a, literal, leave) =>
      Asm.withLabels fun slow done =>
        inlineComparison a literal slow ++ jumpIf leave falseLabel ++ jumpTo done ++
        labelEmit slow ++ emitTruth ctx condition falseLabel ++
        labelEmit done
  | none => emitTruth ctx condition falseLabel

end Vnt
