import Vnt.Backend.Runs

/-!
# `Backend.FastPath` — the inline integer code is exact

`Computes a m` says that a piece of code does what an expression of the semantics does: it leaves the value in `%rax` and
the stack as it was, or stops where the semantics stops. The guarded arithmetic computes what the helper computes on
operands evaluated once, whatever code the operands have.
-/

namespace Vnt

open Lib (Asm Line Refines Processor)

variable {H V : Type} {host : Host H V} {boxed : V → BoxedType} {cpu : Cpu V} {k l : Nat}

/-! ## The flags -/

theorem flags_zf (x y : Int64) : (flagsOf (Arithmetic.sub.apply x y)).zf = (x == y) := by
  show (x - y == 0) = (x == y)
  have hx := Int64.le_toInt x
  have hx' := Int64.toInt_lt x
  have hy := Int64.le_toInt y
  have hy' := Int64.toInt_lt y
  have hzero : (0 : Int64).toInt = 0 := rfl
  rw [Bool.eq_iff_iff, beq_iff_eq, beq_iff_eq, ← Int64.toInt_inj, ← Int64.toInt_inj, hzero, Int64.toInt_sub, Int.bmod_def]
  split <;> omega

/-- SF and OF differ exactly after the comparison of a smaller with a greater number. -/
theorem flags_less (x y : Int64) : ((flagsOf (Arithmetic.sub.apply x y)).sf != (flagsOf (Arithmetic.sub.apply x y)).of) =
    decide (x < y) := by
  have hx := Int64.le_toInt x
  have hx' := Int64.toInt_lt x
  have hy := Int64.le_toInt y
  have hy' := Int64.toInt_lt y
  show (decide (x - y < 0) != decide ((x - y).toInt ≠ x.toInt - y.toInt)) = decide (x < y)
  have hzero : (0 : Int64).toInt = 0 := rfl
  rw [Bool.eq_iff_iff, bne_iff_ne, decide_eq_true_iff, ne_eq, decide_eq_decide, Int64.lt_iff_toInt_lt,
    Int64.lt_iff_toInt_lt, hzero, Int64.toInt_sub, Int.bmod_def]
  split <;> omega

theorem flags_lessEqual (x y : Int64) : ((flagsOf (Arithmetic.sub.apply x y)).zf ||
    (flagsOf (Arithmetic.sub.apply x y)).sf != (flagsOf (Arithmetic.sub.apply x y)).of) = decide (x ≤ y) := by
  rw [flags_zf, flags_less, Bool.eq_iff_iff, Bool.or_eq_true, beq_iff_eq, decide_eq_true_iff, decide_eq_true_iff,
    Int64.le_iff_lt_or_eq, or_comm]

/-- Where the inline instruction does not overflow, the helper returns its result. -/
theorem binaryValue_inline {op : BinaryOperator} {inline : Arithmetic} (hop : arithmetic op = some inline) {x y : Int64}
    (hof : (flagsOf (inline.apply x y)).of = false) :
    binaryValue host op (.int x) (.int y) = pure (.int (inline.apply x y).1) := by
  have hexact : (inline.apply x y).1.toInt = (inline.apply x y).2 := by
    simpa [flagsOf] using hof
  have hchecked := Lib.checked_of_toInt hexact
  cases op with
  | add =>
      cases hop
      show intResult _ (Lib.checked (x.toInt + y.toInt)) = _
      rw [show Lib.checked (x.toInt + y.toInt) = _ from hchecked]
      rfl
  | subtract =>
      cases hop
      show intResult _ (Lib.checked (x.toInt - y.toInt)) = _
      rw [show Lib.checked (x.toInt - y.toInt) = _ from hchecked]
      rfl
  | multiply =>
      cases hop
      show intResult _ (Lib.checked (x.toInt * y.toInt)) = _
      rw [show Lib.checked (x.toInt * y.toInt) = _ from hchecked]
      rfl
  | _ => cases hop

/-! ## Code that computes a value -/

/-- What a piece of code leaves behind: `w` in `%rax`, and the stack as it was. -/
structure Leaves (cpu : Cpu V) (w : Word V) (r : Option Nat × Cpu V) : Prop where
  onward : r.1 = none
  rax : r.2.regs .rax = w
  stack : r.2.stack = cpu.stack
  base : r.2.base = cpu.base

/-- The code computes `m`, with labels of its own only. -/
structure Computes (host : Host H V) (boxed : V → BoxedType) (a : Code H V) (m : M H V (Value V)) : Prop where
  owns : Asm.Owns [] a
  runs : ∀ k cpu, Refines (fun v => Leaves cpu (.pointer v)) m (a.exec (processor host boxed) k none cpu)

variable {a b left right : Code H V} {m ml mr : M H V (Value V)}

/-- The code goes on with the value in `%rax`. -/
theorem Computes.andThen {α : Type} (ha : Computes host boxed a m) {f : Value V → M H V α} {R : α → Option Nat × Cpu V → Prop}
    (hb : ∀ v cpu', cpu'.regs .rax = .pointer v → cpu'.stack = cpu.stack → cpu'.base = cpu.base →
      Refines R (f v) (b.exec (processor host boxed) (a k).2 none cpu')) :
    Refines R (m >>= f) ((a ++ b).exec (processor host boxed) k none cpu) := by
  rw [Asm.exec_append]
  apply (ha.runs k cpu).bind
  rintro v ⟨skip, cpu'⟩ ⟨rfl, hrax, hstack, hbase⟩
  exact hb v cpu' hrax hstack hbase

/-- `call0` is the end of the code. -/
theorem call0_leaves {f : Callee} {cpu' : Cpu V} {m : M H V (Value V)} (hstack : cpu'.stack = cpu.stack)
    (hbase : cpu'.base = cpu.base) (hrun : f.run host cpu' = m >>= fun v => pure (.pointer v)) :
    Refines (fun v => Leaves cpu (.pointer v)) m ((call0 f).exec (processor host boxed) k none cpu') := by
  rw [call0_exec, hrun, bind_assoc]
  apply (Refines.refl m).finish
  rintro v _ rfl
  rw [pure_bind]
  exact .pure ⟨rfl, rfl, hstack, hbase⟩

/-- The same, with a label behind the call. -/
theorem call0_done {f : Callee} {cpu' : Cpu V} {m : M H V (Value V)} (hstack : cpu'.stack = cpu.stack)
    (hbase : cpu'.base = cpu.base) (hrun : f.run host cpu' = m >>= fun v => pure (.pointer v)) :
    Refines (fun v => Leaves cpu (.pointer v)) m ((call0 f ++ labelEmit l).exec (processor host boxed) k none cpu') := by
  rw [Asm.exec_append]
  apply (call0_leaves hstack hbase hrun).finish
  rintro v ⟨skip, cpu₂⟩ ⟨rfl, hrax, hstack', hbase'⟩
  rw [exec_labelEmit]
  exact .pure ⟨rfl, hrax, hstack', hbase'⟩

theorem run_vntBinary {op : BinaryOperator} {v w : Value V} (hrcx : cpu.regs .rcx = .pointer v)
    (hrdx : cpu.regs .rdx = .pointer w) :
    (Callee.vntBinary op).run host cpu = binaryValue host op v w >>= fun u => pure (.pointer u) := by
  unfold Callee.run
  simp only [hrcx, hrdx]

theorem run_vntObjectGet {v : Value V} {key : String} (hrcx : cpu.regs .rcx = .pointer v) (hrdx : cpu.regs .rdx = .text key) :
    Callee.vntObjectGet.run host cpu = liftHost (host.objectGet v key) >>= fun u => pure (.pointer u) := by
  unfold Callee.run
  simp only [hrcx, hrdx]

theorem run_vntArrayGet {v w : Value V} (hrcx : cpu.regs .rcx = .pointer v) (hrdx : cpu.regs .rdx = .pointer w) :
    Callee.vntArrayGet.run host cpu = liftHost (host.arrayGet v w) >>= fun u => pure (.pointer u) := by
  unfold Callee.run
  simp only [hrcx, hrdx]

theorem run_vntDeref {v : Value V} (hrcx : cpu.regs .rcx = .pointer v) :
    Callee.vntDeref.run host cpu = deref v >>= fun u => pure (.pointer u) := by
  unfold Callee.run
  simp only [hrcx]

theorem run_vntUnary {op : UnaryOperator} {v : Value V} (hrcx : cpu.regs .rcx = .pointer v) :
    (Callee.vntUnary op).run host cpu = unaryValue host op v >>= fun u => pure (.pointer u) := by
  unfold Callee.run
  simp only [hrcx]

theorem run_vntTruth {v : Value V} (hrcx : cpu.regs .rcx = .pointer v) :
    Callee.vntTruth.run host cpu = truth v >>= fun b => pure (.number (if b then 1 else 0)) := by
  unfold Callee.run
  simp only [hrcx]

theorem run_vntInt {x : Int64} (hrcx : cpu.regs .rcx = .number x) :
    Callee.vntInt.run host cpu = pure (.int x) >>= fun u => pure (.pointer u) := by
  unfold Callee.run
  simp only [hrcx]
  rfl

/-- Both operands are in their registers. -/
theorem operands_exec {α : Type} (hl : Computes host boxed left ml) (hr : Computes host boxed right mr)
    {f : Value V → Value V → M H V α} {R : α → Option Nat × Cpu V → Prop}
    (hb : ∀ v w cpu', cpu'.regs .rcx = .pointer v → cpu'.regs .rdx = .pointer w → cpu'.stack = cpu.stack →
      cpu'.base = cpu.base → ∀ k', k ≤ k' → Refines R (f v w) (b.exec (processor host boxed) k' none cpu')) :
    Refines R (ml >>= fun v => mr >>= fun w => f v w)
      ((emitOperands left right ++ b).exec (processor host boxed) k none cpu) := by
  unfold emitOperands
  simp only [append_assoc]
  apply hl.andThen
  intro v cpu₁ hrax hstack hbase
  have hpush : block host boxed [.push .rax] cpu₁ = pure { cpu₁ with stack := .pointer v :: cpu₁.stack } := by
    rw [← hrax]
    rfl
  rw [exec_text_append, hpush, pure_bind]
  apply hr.andThen
  intro w cpu₂ hrax' hstack' hbase'
  have hpop : block host boxed [.mov .rax .rdx, .pop .rcx] cpu₂ =
      pure { (cpu₂.set .rdx (.pointer w)).set .rcx (.pointer v) with stack := cpu₁.stack } := by
    simp [hrax', hstack', Cpu.set]
  rw [exec_text_append, hpop, pure_bind]
  apply hb v w
  · rfl
  · rfl
  · exact hstack
  · exact hbase'.trans hbase
  · exact Nat.le_trans (hl.owns.le k) (hr.owns.le _)

/-! ## Guards -/

/-- The guards tell three kinds of values apart. -/
theorem guard_cases (boxed : V → BoxedType) (v : Value V) : v = .null ∨ (∃ y, v = .int y) ∨
    ((Word.pointer v).isZero = some false ∧ ∃ t, v.tag boxed = some t ∧ (t == tagNumber .int) = false) := by
  cases v with
  | null => exact Or.inl rfl
  | int y => exact Or.inr (Or.inl ⟨y, rfl⟩)
  | boxed u =>
      refine Or.inr (Or.inr ⟨rfl, _, rfl, ?_⟩)
      cases boxed u <;> rfl
  | _ => exact Or.inr (Or.inr ⟨rfl, _, rfl, rfl⟩)

/-- `test` and a jump for the null pointer. -/
theorem exec_test_append {r : Reg} {v : Value V} {zf : Bool} {slow : Nat} (b : Code H V) (hr : cpu.regs r = .pointer v)
    (hzf : (Word.pointer v).isZero = some zf) :
    (text [.test r] ++ (jumpIf .z slow ++ b)).exec (processor host boxed) k none cpu =
      b.exec (processor host boxed) k (if zf = true then some slow else none) (cpu.setFlags ⟨zf, false, false⟩) := by
  have htest : block host boxed [.test r] cpu = pure (cpu.setFlags ⟨zf, false, false⟩) := by
    simp [hr, hzf]
  rw [exec_text_append, htest, pure_bind, exec_jumpIf_append _ rfl]
  rfl

/-- The comparison of the tag, and a jump for whatever is no integer. -/
theorem exec_cmpTag_append {r : Reg} {v : Value V} {t slow : Nat} (b : Code H V) (hr : cpu.regs r = .pointer v)
    (ht : v.tag boxed = some t) :
    (text [.cmpTag r] ++ (jumpIf .nz slow ++ b)).exec (processor host boxed) k none cpu =
      b.exec (processor host boxed) k (if (t == tagNumber .int) = true then none else some slow)
        (cpu.setFlags ⟨t == tagNumber .int, false, false⟩) := by
  have hcmp : block host boxed [.cmpTag r] cpu = pure (cpu.setFlags ⟨t == tagNumber .int, false, false⟩) := by
    simp [hr, ht]
  rw [exec_text_append, hcmp, pure_bind, exec_jumpIf_append _ rfl]
  cases htag : t == tagNumber .int <;> rfl

/-- The inline instruction on two numbers, and a jump for its overflow. -/
theorem exec_arith {inline : Arithmetic} {src : Source} {r : Reg} {x y : Int64} {slow : Nat}
    (hr : cpu.regs r = .pointer (.int x)) (hsrc : src.read (cpu.set .r10 (.number x)) = some y) :
    (text [.movPayload r .r10, .arith inline src .r10] ++ jumpIf .o slow).exec (processor host boxed) k none cpu =
      pure (if (flagsOf (inline.apply x y)).of = true then some slow else none,
        ((cpu.set .r10 (.number x)).set .r10 (.number (inline.apply x y).1)).setFlags (flagsOf (inline.apply x y))) := by
  have hblock : block host boxed [.movPayload r .r10, .arith inline src .r10] cpu =
      pure (((cpu.set .r10 (.number x)).set .r10 (.number (inline.apply x y).1)).setFlags
        (flagsOf (inline.apply x y))) := by
    simp only [block, step, hr, pure_bind, hsrc, bind_pure]
    rfl
  rw [exec_text_append, hblock, pure_bind, exec_jumpIf rfl]
  rfl

/-- The inline code for a literal gets through exactly with an integer whose result fits. -/
theorem inlineLiteral_exec {inline : Arithmetic} {x : Int32} {v : Value V} {slow : Nat}
    (hrax : cpu.regs .rax = .pointer v) :
    ∃ skip cpu', (inlineLiteral inline x slow).exec (processor host boxed) k none cpu = pure (skip, cpu') ∧
      cpu'.stack = .pointer v :: cpu.stack ∧ cpu'.base = cpu.base ∧
      (skip = some slow ∨ skip = none ∧ ∃ y, v = .int y ∧ (flagsOf (inline.apply y x.toInt64)).of = false ∧
        cpu'.regs .r10 = .number (inline.apply y x.toInt64).1) := by
  obtain ⟨loaded, hloaded⟩ : ∃ loaded : Cpu V,
      loaded = { cpu with stack := .pointer v :: cpu.stack }.set .r11 (.pointer v) := ⟨_, rfl⟩
  have hr11 : loaded.regs .r11 = .pointer v := by
    rw [hloaded]
    rfl
  have hr11' : ∀ flags, (loaded.setFlags flags).regs .r11 = .pointer v := fun _ => hr11
  have hstack : loaded.stack = .pointer v :: cpu.stack := by
    rw [hloaded]
    rfl
  have hbase : loaded.base = cpu.base := by
    rw [hloaded]
    rfl
  have hload : (inlineLiteral inline x slow).exec (processor host boxed) k none cpu =
      (text [.test .r11] ++ (jumpIf .z slow ++ (text [.cmpTag .r11] ++ (jumpIf .nz slow ++
        (text [.movPayload .r11 .r10, .arith inline (.immediate x) .r10] ++ jumpIf .o slow))))).exec
          (processor host boxed) k none loaded := by
    unfold inlineLiteral
    simp only [append_assoc, exec_text_append, block, step, hrax, pure_bind, hloaded]
  rw [hload]
  rcases guard_cases boxed v with rfl | ⟨y, rfl⟩ | ⟨hzero, t, htag, hint⟩
  · rw [exec_test_append _ hr11 rfl]
    exact ⟨_, _, rfl, hstack, hbase, Or.inl rfl⟩
  · rw [exec_test_append _ hr11 rfl]
    show ∃ skip cpu', Asm.exec _ _ k none _ = _ ∧ _
    rw [exec_cmpTag_append _ (hr11' _) rfl]
    show ∃ skip cpu', Asm.exec _ _ k none _ = _ ∧ _
    refine ⟨_, _, exec_arith (hr11' _) rfl, hstack, hbase, ?_⟩
    cases hof : (flagsOf (inline.apply y x.toInt64)).of with
    | true => exact Or.inl rfl
    | false => exact Or.inr ⟨rfl, y, rfl, hof, rfl⟩
  · rw [exec_test_append _ hr11 hzero]
    show ∃ skip cpu', Asm.exec _ _ k none _ = _ ∧ _
    rw [exec_cmpTag_append _ (hr11' _) htag, hint]
    exact ⟨_, _, rfl, hstack, hbase, Or.inl rfl⟩

theorem isZero_of_ne_null {v : Value V} (h : v ≠ .null) : (Word.pointer v).isZero = some false := by
  cases v with
  | null => exact absurd rfl h
  | _ => rfl

theorem tag_of_not_int {v : Value V} (hnull : v ≠ .null) (hint : ∀ y, v ≠ .int y) :
    ∃ t, v.tag boxed = some t ∧ (t == tagNumber .int) = false := by
  rcases guard_cases boxed v with rfl | ⟨y, rfl⟩ | ⟨-, h⟩
  · exact absurd rfl hnull
  · exact absurd rfl (hint y)
  · exact h

theorem read_payload {r : Reg} {x : Int64} (h : cpu.regs r = .pointer (.int x)) : (Source.payload r).read cpu = some x := by
  simp only [Source.read, h]

/-- The inline code for two operands gets through exactly with two integers whose result fits. -/
theorem inlineOperands_exec {inline : Arithmetic} {v w : Value V} {slow : Nat} (hrcx : cpu.regs .rcx = .pointer v)
    (hrdx : cpu.regs .rdx = .pointer w) :
    ∃ skip cpu', (inlineOperands inline slow).exec (processor host boxed) k none cpu = pure (skip, cpu') ∧
      cpu'.stack = cpu.stack ∧ cpu'.base = cpu.base ∧ cpu'.regs .rcx = .pointer v ∧ cpu'.regs .rdx = .pointer w ∧
      (skip = some slow ∨ skip = none ∧ ∃ x y, v = .int x ∧ w = .int y ∧ (flagsOf (inline.apply x y)).of = false ∧
        cpu'.regs .r10 = .number (inline.apply x y).1) := by
  have hrcx' : ∀ flags, (cpu.setFlags flags).regs .rcx = .pointer v := fun _ => hrcx
  have hrdx' : ∀ flags, (cpu.setFlags flags).regs .rdx = .pointer w := fun _ => hrdx
  unfold inlineOperands
  simp only [append_assoc]
  by_cases hv : v = .null
  · subst hv
    rw [exec_test_append _ hrcx rfl]
    exact ⟨_, _, rfl, rfl, rfl, hrcx, hrdx, Or.inl rfl⟩
  rw [exec_test_append _ hrcx (isZero_of_ne_null hv)]
  show ∃ skip cpu', Asm.exec _ _ k none _ = _ ∧ _
  by_cases hw : w = .null
  · subst hw
    rw [exec_test_append _ (hrdx' _) rfl]
    exact ⟨_, _, rfl, rfl, rfl, hrcx, hrdx, Or.inl rfl⟩
  rw [exec_test_append _ (hrdx' _) (isZero_of_ne_null hw)]
  show ∃ skip cpu', Asm.exec _ _ k none (cpu.setFlags _) = _ ∧ _
  by_cases hx : ∃ x, v = .int x
  · obtain ⟨x, rfl⟩ := hx
    rw [exec_cmpTag_append _ (hrcx' _) rfl]
    show ∃ skip cpu', Asm.exec _ _ k none (cpu.setFlags _) = _ ∧ _
    by_cases hy : ∃ y, w = .int y
    · obtain ⟨y, rfl⟩ := hy
      rw [exec_cmpTag_append _ (hrdx' _) rfl]
      show ∃ skip cpu', Asm.exec _ _ k none (cpu.setFlags _) = _ ∧ _
      have hsource : (Source.payload .rdx).read ((cpu.setFlags ⟨true, false, false⟩).set .r10 (.number x)) = some y :=
        read_payload hrdx
      refine ⟨_, _, exec_arith (hrcx' _) hsource, rfl, rfl, hrcx, hrdx, ?_⟩
      cases hof : (flagsOf (inline.apply x y)).of with
      | true => exact Or.inl rfl
      | false => exact Or.inr ⟨rfl, x, y, rfl, rfl, hof, rfl⟩
    · obtain ⟨t, htag, hint⟩ := @tag_of_not_int V boxed w hw fun y h => hy ⟨y, h⟩
      rw [exec_cmpTag_append _ (hrdx' _) htag, hint]
      exact ⟨_, _, rfl, rfl, rfl, hrcx, hrdx, Or.inl rfl⟩
  · obtain ⟨t, htag, hint⟩ := @tag_of_not_int V boxed v hv fun x h => hx ⟨x, h⟩
    rw [exec_cmpTag_append _ (hrcx' _) htag, hint]
    exact ⟨_, _, rfl, rfl, rfl, hrcx, hrdx, Or.inl rfl⟩

/-! ## Guarded arithmetic -/

/-- From `slow` on: the literal is evaluated, and the helper is called. -/
theorem slow_literal {op : BinaryOperator} {x : Int32} {v : Value V} {slow done : Nat} {cpu' : Cpu V}
    (hr : Computes host boxed right (pure (.int x.toInt64))) (hstack : cpu'.stack = .pointer v :: cpu.stack)
    (hbase : cpu'.base = cpu.base) (hslow : slow < k) :
    Refines (fun u => Leaves cpu (.pointer u)) (binaryValue host op v (.int x.toInt64))
      ((text [.mov .r10 .rcx, .drop] ++ (call0 .vntInt ++ (jumpTo done ++ (labelEmit slow ++ (right ++
        (text [.mov .rax .rdx, .pop .rcx] ++ (call0 (.vntBinary op) ++ labelEmit done))))))).exec
          (processor host boxed) k (some slow) cpu') := by
  rw [pass_text_append, pass_append _ owns_call0 hslow, pass_jumpTo_append, pass_labelEmit_append, if_pos rfl,
    ← pure_bind (Value.int x.toInt64) fun w => binaryValue host op v w]
  apply hr.andThen
  intro w cpu₂ hrax hstack' hbase'
  have hpop : block host boxed [.mov .rax .rdx, .pop .rcx] cpu₂ =
      pure { (cpu₂.set .rdx (.pointer w)).set .rcx (.pointer v) with stack := cpu.stack } := by
    simp [hrax, hstack', hstack, Cpu.set]
  rw [exec_text_append, hpop, pure_bind]
  apply call0_done
  · rfl
  · exact hbase'.trans hbase
  · exact run_vntBinary rfl rfl

/-- Past the guards: the number is boxed, and the rest is passed over. -/
theorem fast_literal {op : BinaryOperator} {z : Int64} {v : Value V} {slow done : Nat} {cpu' : Cpu V}
    (hr : Asm.Owns [] right) (hr10 : cpu'.regs .r10 = .number z) (hstack : cpu'.stack = .pointer v :: cpu.stack)
    (hbase : cpu'.base = cpu.base) (hne : slow ≠ done) (hdone : done < k) :
    Refines (fun u => Leaves cpu (.pointer u)) (pure (.int z))
      ((text [.mov .r10 .rcx, .drop] ++ (call0 .vntInt ++ (jumpTo done ++ (labelEmit slow ++ (right ++
        (text [.mov .rax .rdx, .pop .rcx] ++ (call0 (.vntBinary op) ++ labelEmit done))))))).exec
          (processor host boxed) k none cpu') := by
  have hmov : block host boxed [.mov .r10 .rcx, .drop] cpu' =
      pure { cpu'.set .rcx (.number z) with stack := cpu.stack } := by
    simp [hr10, hstack, Cpu.set]
  have hcall := (@owns_call0 H V [] .vntInt).le k
  have hright := hr.le ((call0 .vntInt : Code H V) k).2
  rw [exec_text_append, hmov, pure_bind, exec_call0_append, run_vntInt rfl, pure_bind, pure_bind, exec_jumpTo_append,
    pass_labelEmit_append, if_neg hne, pass_append _ hr (Nat.lt_of_lt_of_le hdone hcall), pass_text_append,
    pass_append _ owns_call0 (Nat.lt_of_lt_of_le hdone (Nat.le_trans hcall hright)), pass_labelEmit, if_pos rfl]
  exact .pure ⟨rfl, rfl, rfl, hbase⟩

theorem computes_literal {op : BinaryOperator} {inline : Arithmetic} {x : Int32} (hop : arithmetic op = some inline)
    (hl : Computes host boxed left ml) (hr : Computes host boxed right (pure (.int x.toInt64))) :
    Computes host boxed (emitLiteral op inline x left right) (ml >>= fun v => binaryValue host op v (.int x.toInt64)) := by
  have howns : ∀ slow done : Nat, Asm.Owns [slow, done] (inlineLiteral inline x slow : Code H V) := fun slow done =>
    (((((owns_text _).append owns_jumpIf).append (owns_text _)).append owns_jumpIf).append (owns_text _)).append
      owns_jumpIf
  constructor
  · apply Asm.Owns.withLabels
    intro slow done
    have hdone : done ∈ [slow, done] := List.mem_cons_of_mem slow List.mem_cons_self
    exact (((((((((hl.owns.mono nofun).append (howns slow done)).append (owns_text _)).append owns_call0).append
      owns_jumpTo).append (owns_labelEmit List.mem_cons_self)).append (hr.owns.mono nofun)).append (owns_text _)).append
      owns_call0).append (owns_labelEmit hdone)
  · intro k cpu
    have hne : k ≠ k + 1 := (Nat.succ_ne_self k).symm
    unfold emitLiteral
    rw [Asm.exec_withLabels]
    simp only [append_assoc]
    apply hl.andThen
    intro v cpu₁ hrax hstack hbase
    have hleft : k + 2 ≤ (left (k + 2)).2 := hl.owns.le (k + 2)
    have hinline := (howns k (k + 1)).le (left (k + 2)).2
    obtain ⟨skip, cpu₂, hexec, hstack₂, hbase₂, hskip⟩ :=
      @inlineLiteral_exec H V host boxed cpu₁ (left (k + 2)).2 inline x v k hrax
    rw [Asm.exec_append, hexec, pure_bind]
    rcases hskip with rfl | ⟨rfl, y, rfl, hof, hr10⟩
    · apply slow_literal hr (hstack₂.trans (by rw [hstack])) (hbase₂.trans hbase)
      omega
    · rw [binaryValue_inline hop hof]
      apply fast_literal hr.owns hr10 (hstack₂.trans (by rw [hstack])) (hbase₂.trans hbase) hne
      omega

theorem computes_operands {op : BinaryOperator} (hl : Computes host boxed left ml) (hr : Computes host boxed right mr) :
    Computes host boxed (emitOperands left right ++ call0 (.vntBinary op))
      (ml >>= fun v => mr >>= fun w => binaryValue host op v w) := by
  constructor
  · exact (((hl.owns.append (owns_text _)).append hr.owns).append (owns_text _)).append owns_call0
  · intro k cpu
    apply operands_exec hl hr
    intro v w cpu' hrcx hrdx hstack hbase k' _
    exact call0_leaves hstack hbase (run_vntBinary hrcx hrdx)

theorem computes_guarded {op : BinaryOperator} {inline : Arithmetic} (hop : arithmetic op = some inline)
    (hl : Computes host boxed left ml) (hr : Computes host boxed right mr) :
    Computes host boxed (emitOperands left right ++ emitGuarded op inline)
      (ml >>= fun v => mr >>= fun w => binaryValue host op v w) := by
  have howns : ∀ slow done : Nat, Asm.Owns [slow, done] (inlineOperands inline slow : Code H V) := fun slow done =>
    (((((((((owns_text _).append owns_jumpIf).append (owns_text _)).append owns_jumpIf).append (owns_text _)).append
      owns_jumpIf).append (owns_text _)).append owns_jumpIf).append (owns_text _)).append owns_jumpIf
  constructor
  · apply (((hl.owns.append (owns_text _)).append hr.owns).append (owns_text _)).append
    apply Asm.Owns.withLabels
    intro slow done
    have hdone : done ∈ [slow, done] := List.mem_cons_of_mem slow List.mem_cons_self
    exact ((((((howns slow done).append (owns_text _)).append owns_call0).append owns_jumpTo).append
      (owns_labelEmit List.mem_cons_self)).append owns_call0).append (owns_labelEmit hdone)
  · intro k cpu
    apply operands_exec hl hr
    intro v w cpu' hrcx hrdx hstack hbase k' _
    have hne : k' ≠ k' + 1 := (Nat.succ_ne_self k').symm
    have hinline := (howns k' (k' + 1)).le (k' + 2)
    have hcall := (@owns_call0 H V [] .vntInt).le ((inlineOperands inline k' : Code H V) (k' + 2)).2
    unfold emitGuarded
    rw [Asm.exec_withLabels]
    simp only [append_assoc]
    obtain ⟨skip, cpu₂, hexec, hstack₂, hbase₂, hrcx₂, hrdx₂, hskip⟩ :=
      @inlineOperands_exec H V host boxed cpu' (k' + 2) inline v w k' hrcx hrdx
    rw [Asm.exec_append, hexec, pure_bind]
    rcases hskip with rfl | ⟨rfl, x, y, rfl, rfl, hof, hr10⟩
    · -- The helper gets the operands, which are still where they were.
      show Refines _ _ (Asm.exec _ _ _ (some k') cpu₂)
      rw [pass_text_append, pass_append _ owns_call0 (by omega), pass_jumpTo_append, pass_labelEmit_append, if_pos rfl]
      exact call0_done (hstack₂.trans hstack) (hbase₂.trans hbase) (run_vntBinary hrcx₂ hrdx₂)
    · have hmov : block host boxed [.mov .r10 .rcx] cpu₂ = pure (cpu₂.set .rcx (.number (inline.apply x y).1)) := by
        simp [hr10]
      show Refines _ _ (Asm.exec _ _ _ none cpu₂)
      rw [binaryValue_inline hop hof, exec_text_append, hmov, pure_bind, exec_call0_append, run_vntInt rfl, pure_bind,
        pure_bind, exec_jumpTo_append, pass_labelEmit_append, if_neg hne, pass_append _ owns_call0 (by omega),
        pass_labelEmit, if_pos rfl]
      exact .pure ⟨rfl, rfl, hstack₂.trans hstack, hbase₂.trans hbase⟩

end Vnt
