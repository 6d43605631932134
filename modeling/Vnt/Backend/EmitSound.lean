import Vnt.Backend.FastPath

/-!
# `Backend.EmitSound` — the code of an expression computes it

Every piece that `emits` lays out computes what `evals` says, by induction on the tree: one lemma for each kind of node, on
children whose code is sound.
-/

namespace Vnt

open Lib (Asm Refines)

variable {H V : Type} {host : Host H V} {boxed : V → BoxedType} {cpu : Cpu V} {k l : Nat}

variable {a b left right : Code H V} {m ml mr : M H V (Value V)}

/-! ## Leaves and single operands -/

/-- Code that ends in a call of the library, before which the stack is as it was. -/
theorem leaves_call {f : Callee} {is : List (Instr H V)} {cpu' cpu₂ : Cpu V} {m : M H V (Value V)}
    (hblock : block host boxed is cpu' = pure cpu₂) (hstack : cpu₂.stack = cpu.stack) (hbase : cpu₂.base = cpu.base)
    (hrun : f.run host cpu₂ = m >>= fun v => pure (.pointer v)) :
    Refines (fun v => Leaves cpu (.pointer v)) m ((text is ++ call0 f).exec (processor host boxed) k none cpu') := by
  rw [exec_text_append, hblock, pure_bind]
  exact call0_leaves hstack hbase hrun

theorem owns_text_call {is : List (Instr H V)} {f : Callee} : Asm.Owns [] (text is ++ call0 f : Code H V) :=
  (owns_text _).append owns_call0

theorem computes_fail : Computes host boxed (text [.fail]) (throw .stuck) := by
  constructor
  · exact owns_text _
  · intro k cpu
    exact .throw

theorem computes_leaf (ctx : Ctx H V) (boxed : V → BoxedType) (op : HirLeaf) :
    Computes ctx.host boxed (emitLeaf ctx op) (evalLeaf ctx op) := by
  cases op with
  | integer x => exact ⟨owns_text_call, fun k cpu => leaves_call rfl rfl rfl (run_vntInt rfl)⟩
  | boolean b =>
      refine ⟨owns_text_call, fun k cpu => leaves_call rfl rfl rfl ?_⟩
      cases b <;> rfl
  | null => exact ⟨owns_text _, fun k cpu => .pure ⟨rfl, rfl, rfl, rfl⟩⟩
  | float x => exact ⟨owns_text_call, fun k cpu => leaves_call rfl rfl rfl rfl⟩
  | string s => exact ⟨owns_text_call, fun k cpu => leaves_call rfl rfl rfl rfl⟩
  | «variable» x =>
      refine ⟨owns_text _, fun k cpu => ?_⟩
      show Refines _ _ ((readVar (ctx.addr x) >>= fun v => pure (cpu.set .rax (.pointer v))) >>= fun t => pure (none, t))
      rw [bind_assoc]
      apply (Refines.refl _).finish
      rintro v _ rfl
      exact .pure ⟨rfl, rfl, rfl, rfl⟩
  | struct | breakNode | continueNode | asm => exact computes_fail

/-- A call of the library on the value of one operand. -/
theorem computes_operand {f : Callee} {is : List (Instr H V)} {g : Value V → M H V (Value V)}
    (ha : Computes host boxed a m)
    (hcall : ∀ v (cpu : Cpu V), cpu.regs .rax = .pointer v → ∃ cpu', block host boxed is cpu = pure cpu' ∧
      cpu'.stack = cpu.stack ∧ cpu'.base = cpu.base ∧ f.run host cpu' = g v >>= fun u => pure (.pointer u)) :
    Computes host boxed (a ++ text is ++ call0 f) (m >>= g) := by
  constructor
  · exact (ha.owns.append (owns_text _)).append owns_call0
  · intro k cpu
    rw [append_assoc]
    apply ha.andThen
    intro v cpu₁ hrax hstack hbase
    obtain ⟨cpu₂, hblock, hstack₂, hbase₂, hrun⟩ := hcall v cpu₁ hrax
    exact leaves_call hblock (hstack₂.trans hstack) (hbase₂.trans hbase) hrun

/-- The same, with the value moved to the first argument. -/
theorem computes_moved {f : Callee} {g : Value V → M H V (Value V)} (ha : Computes host boxed a m)
    (hrun : ∀ v (cpu : Cpu V), cpu.regs .rcx = .pointer v → f.run host cpu = g v >>= fun u => pure (.pointer u)) :
    Computes host boxed (a ++ text [.mov .rax .rcx] ++ call0 f) (m >>= g) := by
  apply computes_operand ha
  intro v cpu hrax
  exact ⟨cpu.set .rcx (cpu.regs .rax), rfl, rfl, rfl, hrun v _ hrax⟩

theorem computes_elements {as : List (Code H V)} {ms : List (M H V (Value V))}
    (h : List.Forall₂ (Computes host boxed) as ms) :
    Asm.Owns [] (emitElements as) ∧ ∀ array k (cpu cpu' : Cpu V), cpu'.regs .rax = .pointer array →
      cpu'.stack = cpu.stack → cpu'.base = cpu.base → Refines (fun v => Leaves cpu (.pointer v)) (pushAll host ms array)
        ((emitElements as).exec (processor host boxed) k none cpu') := by
  induction h with
  | nil =>
      refine ⟨owns_text _, ?_⟩
      intro array k cpu cpu' hrax hstack hbase
      exact .pure ⟨rfl, hrax, hstack, hbase⟩
  | @cons a m as ms ha _ ih =>
      obtain ⟨howns, hruns⟩ := ih
      refine ⟨((((owns_text _).append ha.owns).append (owns_text _)).append owns_call0).append howns, ?_⟩
      intro array k cpu cpu' hrax hstack hbase
      have hpush : block host boxed [.push .rax] cpu' = pure { cpu' with stack := .pointer array :: cpu'.stack } := by
        rw [← hrax]
        rfl
      unfold emitElements
      simp only [append_assoc]
      rw [exec_text_append, hpush, pure_bind]
      apply ha.andThen
      intro v cpu₁ hrax₁ hstack₁ hbase₁
      have hpop : block host boxed [.mov .rax .rdx, .pop .rcx] cpu₁ =
          pure { (cpu₁.set .rdx (.pointer v)).set .rcx (.pointer array) with stack := cpu'.stack } := by
        simp [hrax₁, hstack₁, Cpu.set]
      rw [exec_text_append, hpop, pure_bind, exec_call0_append]
      -- `vnt_array_push` returns the array for the next element.
      show Refines _ (liftHost (host.arrayPush array v) >>= _) ((liftHost (host.arrayPush array v) >>= _) >>= _)
      rw [bind_assoc]
      apply (Refines.refl _).bind
      rintro array' _ rfl
      rw [pure_bind]
      exact hruns _ _ cpu _ rfl hstack (hbase₁.trans hbase)

theorem computes_first {as : List (Code H V)} {ms : List (M H V (Value V))} (h : List.Forall₂ (Computes host boxed) as ms) :
    Computes host boxed (firstCode as) (first ms) := by
  cases h with
  | nil => exact computes_fail
  | cons ha _ => exact ha

theorem computes_reference (ctx : Ctx H V) (boxed : V → BoxedType) (a : Hir) :
    Computes ctx.host boxed (emitReference ctx a) (reference ctx a) := by
  cases a with
  | leaf i op n =>
      cases op with
      | «variable» x => exact ⟨owns_text_call, fun k cpu => leaves_call rfl rfl rfl rfl⟩
      | _ => exact computes_fail
  | _ => exact computes_fail

theorem computes_one (ctx : Ctx H V) (boxed : V → BoxedType) (op : HirOne) (a : Hir)
    (h : List.Forall₂ (Computes ctx.host boxed) (emits ctx a) (evals ctx a)) :
    Computes ctx.host boxed (emitOne ctx op a (emits ctx a)) (evalOne ctx op a (evals ctx a)) := by
  have hfirst := computes_first h
  cases op with
  | array =>
      obtain ⟨howns, hruns⟩ := computes_elements h
      refine ⟨owns_call0.append howns, fun k cpu => ?_⟩
      show Refines _ (liftHost ctx.host.arrayNew >>= _) ((call0 .vntArrayNew ++ emitElements (emits ctx a)).exec _ k none cpu)
      rw [exec_call0_append]
      show Refines _ _ ((liftHost ctx.host.arrayNew >>= _) >>= _)
      rw [bind_assoc]
      apply (Refines.refl _).bind
      rintro array _ rfl
      rw [pure_bind]
      exact hruns _ _ cpu _ rfl rfl rfl
  | call name =>
      refine ⟨owns_text _, fun k cpu => ?_⟩
      show Refines _ _ ((callValue ctx name (evals ctx a) >>= _) >>= fun t => pure (none, t))
      rw [bind_assoc]
      apply (Refines.refl _).finish
      rintro v _ rfl
      exact .pure ⟨rfl, rfl, rfl, rfl⟩
  | member name =>
      apply computes_operand hfirst
      intro v cpu hrax
      exact ⟨_, rfl, rfl, rfl, run_vntObjectGet hrax rfl⟩
  | unary u =>
      cases u with
      | reference => exact computes_reference ctx boxed a
      | dereference => exact computes_moved hfirst fun v cpu hrcx => run_vntDeref hrcx
      | not => exact computes_moved hfirst fun v cpu hrcx => run_vntUnary hrcx
      | negate => exact computes_moved hfirst fun v cpu hrcx => run_vntUnary hrcx
  | program | print | function | returnNode | variableDecl | reassign => exact computes_fail

/-! ## Binary operators -/

/-- The machine after `vnt_truth` has been called and its result tested. -/
def Cpu.tested (cpu : Cpu V) (b : Bool) : Cpu V where
  regs := fun q => if q = .rax then .number (if b then 1 else 0) else .junk
  stack := cpu.stack
  base := cpu.base
  flags := some ⟨!b, false, false⟩

theorem truth_exec {c : Cond} {v : Value V} (b : Code H V) (hrax : cpu.regs .rax = .pointer v) :
    (text [.mov .rax .rcx] ++ (call0 .vntTruth ++ (text [.test .rax] ++ (jumpIf c l ++ b)))).exec (processor host boxed)
      k none cpu = truth v >>= fun t => b.exec (processor host boxed) ((call0 .vntTruth : Code H V) k).2
        (if c.holds ⟨!t, false, false⟩ = true then some l else none) (cpu.tested t) := by
  have hmov : block host boxed [.mov .rax .rcx] cpu = pure (cpu.set .rcx (.pointer v)) := by
    simp [hrax]
  rw [exec_text_append, hmov, pure_bind, exec_call0_append, run_vntTruth rfl, bind_assoc]
  congr 1
  funext t
  have htest : block host boxed [.test .rax]
      { cpu.set .rcx (.pointer v) with
        regs := fun q => if q = .rax then .number (if t = true then 1 else 0) else .junk, flags := none } =
      pure (cpu.tested t) := by
    cases t <;> rfl
  rw [pure_bind, exec_text_append, htest, pure_bind, exec_jumpIf_append _ rfl]

/-- `&&` and `||`: one value of the left operand, `stop`, decides alone. -/
theorem computes_short {leave : Cond} {result : Int64} {stop : Bool}
    (hleave : ∀ b, leave.holds ⟨!b, false, false⟩ = (b == stop)) (hresult : (result != 0) = stop)
    (hl : Computes host boxed left ml) (hr : Computes host boxed right mr) :
    Computes host boxed (emitShort leave result left right) (ml >>= fun l => truth l >>= fun b =>
      if b = stop then pure (.bool stop) else mr >>= fun r => truth r >>= fun c => pure (.bool c)) := by
  constructor
  · apply Asm.Owns.withLabels
    intro short done
    have hdone : done ∈ [short, done] := List.mem_cons_of_mem short List.mem_cons_self
    exact ((((((((((((((hl.owns.mono nofun).append (owns_text _)).append owns_call0).append (owns_text _)).append
      owns_jumpIf).append (hr.owns.mono nofun)).append (owns_text _)).append owns_call0).append (owns_text _)).append
      owns_call0).append owns_jumpTo).append (owns_labelEmit List.mem_cons_self)).append (owns_text _)).append
      owns_call0).append (owns_labelEmit hdone)
  · intro k cpu
    have hne : k ≠ k + 1 := (Nat.succ_ne_self k).symm
    unfold emitShort
    rw [Asm.exec_withLabels]
    simp only [append_assoc]
    apply hl.andThen
    intro v cpu₁ hrax hstack hbase
    have hleft := hl.owns.le (k + 2)
    rw [truth_exec _ hrax]
    apply (Refines.refl _).bind
    rintro _ b rfl
    have htruth := (@owns_call0 H V [] .vntTruth).le (left (k + 2)).2
    have hright := hr.owns.le ((call0 .vntTruth : Code H V) (left (k + 2)).2).2
    rw [hleave]
    by_cases hb : b = stop
    · -- The label `short`, behind the code of the right operand.
      have htruth' := (@owns_call0 H V [] .vntTruth).le (right ((call0 .vntTruth : Code H V) (left (k + 2)).2).2).2
      rw [if_pos hb, if_pos (beq_iff_eq.mpr hb), pass_append _ hr.owns (by omega), pass_text_append,
        pass_append _ owns_call0 (by omega), pass_text_append, pass_append _ owns_call0 (by omega), pass_jumpTo_append,
        pass_labelEmit_append, if_pos rfl, exec_text_append]
      apply call0_done
      · exact hstack
      · exact hbase
      · show pure (Word.pointer (Value.bool (result != 0))) = _
        rw [hresult]
        rfl
    · rw [if_neg hb, if_neg (mt beq_iff_eq.mp hb)]
      apply hr.andThen
      intro w cpu₂ hrax₂ hstack₂ hbase₂
      have hmov : block host boxed [.mov .rax .rcx] cpu₂ = pure (cpu₂.set .rcx (.pointer w)) := by
        simp [hrax₂]
      rw [exec_text_append, hmov, pure_bind, exec_call0_append, run_vntTruth rfl, bind_assoc]
      apply (Refines.refl _).bind
      rintro _ c rfl
      have htruth' := (@owns_call0 H V [] .vntTruth).le (right ((call0 .vntTruth : Code H V) (left (k + 2)).2).2).2
      rw [pure_bind]
      obtain ⟨cpu₃, hmov₃, hrcx₃, hstack₃, hbase₃⟩ : ∃ cpu₃ : Cpu V, block host boxed [.mov .rax .rcx]
          { cpu₂.set .rcx (.pointer w) with
            regs := fun q => if q = .rax then .number (if c = true then 1 else 0) else .junk, flags := none } =
          pure cpu₃ ∧ cpu₃.regs .rcx = .number (if c = true then 1 else 0) ∧ cpu₃.stack = cpu₂.stack ∧
          cpu₃.base = cpu₂.base := ⟨_, rfl, rfl, rfl, rfl⟩
      have hbool : Callee.vntBool.run host cpu₃ = pure (.pointer (.bool c)) := by
        unfold Callee.run
        simp only [hrcx₃]
        cases c <;> rfl
      have hbool' := (@owns_call0 H V [] .vntBool).le
        ((call0 .vntTruth : Code H V) (right ((call0 .vntTruth : Code H V) (left (k + 2)).2).2).2).2
      rw [exec_text_append, hmov₃, pure_bind, exec_call0_append, hbool, pure_bind, exec_jumpTo_append,
        pass_labelEmit_append, if_neg hne, pass_text_append, pass_append _ owns_call0 (by omega), pass_labelEmit,
        if_pos rfl]
      exact .pure ⟨rfl, rfl, hstack₃.trans (hstack₂.trans hstack), hbase₃.trans (hbase₂.trans hbase)⟩

/-- The literal is what its node computes. -/
theorem first_shortLiteral {ctx : Ctx H V} {b : Hir} {x : Int32} (h : shortLiteral b = some x) :
    first (evals ctx b) = pure (.int x.toInt64) := by
  cases b with
  | leaf i op n =>
      cases op with
      | integer y =>
          unfold shortLiteral at h
          simp only at h
          split at h
          case isTrue hrange =>
            obtain rfl := Option.some.inj h
            have hback : y.toInt32.toInt64 = y := by
              rw [← Int64.toInt_inj, Int32.toInt_toInt64, Int64.toInt_toInt32]
              have hmin : Int32.minValue.toInt = -2 ^ 31 := rfl
              have hmax : Int32.maxValue.toInt = 2 ^ 31 - 1 := rfl
              exact Int.bmod_eq_of_le (by omega) (by omega)
            rw [hback]
            rfl
          case isFalse => cases h
      | _ => cases h
  | _ => cases h

/-- The inline code for an operator, whatever the right operand is. -/
theorem computes_inline {ctx : Ctx H V} {op : BinaryOperator} {inline : Arithmetic} {b : Hir}
    (hop : arithmetic op = some inline) (hl : Computes ctx.host boxed left ml)
    (hr : Computes ctx.host boxed right (first (evals ctx b))) :
    Computes ctx.host boxed (emitBinary op b left right)
      (ml >>= fun v => first (evals ctx b) >>= fun w => binaryValue ctx.host op v w) := by
  cases hliteral : shortLiteral b with
  | some x =>
      have hemit : emitBinary op b left right = emitLiteral op inline x left right := by
        cases op <;> cases hop <;> simp only [emitBinary, arithmetic, hliteral]
      rw [first_shortLiteral hliteral] at hr ⊢
      simp only [hemit, pure_bind]
      exact computes_literal hop hl hr
  | none =>
      have hemit : emitBinary op b left right = emitOperands left right ++ emitGuarded op inline := by
        cases op <;> cases hop <;> simp only [emitBinary, arithmetic, hliteral]
      rw [hemit]
      exact computes_guarded hop hl hr

theorem computes_binary (ctx : Ctx H V) (op : BinaryOperator) (b : Hir) (hl : Computes ctx.host boxed left ml)
    (hr : Computes ctx.host boxed right (first (evals ctx b))) :
    Computes ctx.host boxed (emitBinary op b left right) (evalTwo ctx (.binary op) ml (first (evals ctx b))) := by
  cases op with
  | and =>
      have hleave : ∀ b, Cond.z.holds ⟨!b, false, false⟩ = (b == false) := by
        intro b
        cases b <;> rfl
      have hshort := @computes_short H V ctx.host boxed left right ml _ .z 0 false hleave rfl hl hr
      have heval : evalTwo ctx (.binary .and) ml (first (evals ctx b)) = ml >>= fun l => truth l >>= fun b' =>
          if b' = false then pure (.bool false)
          else first (evals ctx b) >>= fun r => truth r >>= fun c => pure (.bool c) := by
        show (ml >>= fun l => truth l >>= fun b' => if b' = true then
          first (evals ctx b) >>= fun r => truth r >>= fun c => pure (Value.bool c) else pure (Value.bool false)) = _
        apply bind_congr
        intro l
        apply bind_congr
        intro b'
        cases b' <;> rfl
      rw [heval]
      exact hshort
  | or =>
      have hleave : ∀ b, Cond.nz.holds ⟨!b, false, false⟩ = (b == true) := by
        intro b
        cases b <;> rfl
      exact @computes_short H V ctx.host boxed left right ml _ .nz 1 true hleave rfl hl hr
  | add => exact computes_inline rfl hl hr
  | subtract => exact computes_inline rfl hl hr
  | multiply => exact computes_inline rfl hl hr
  | divide | modulo | equal | notEqual | greater | less | greaterEqual | lessEqual => exact computes_operands hl hr

theorem computes_two (ctx : Ctx H V) (op : HirTwo) (b : Hir) (hl : Computes ctx.host boxed left ml)
    (hr : Computes ctx.host boxed right (first (evals ctx b))) :
    Computes ctx.host boxed (emitTwo op b left right) (evalTwo ctx op ml (first (evals ctx b))) := by
  cases op with
  | index =>
      constructor
      · exact (((hl.owns.append (owns_text _)).append hr.owns).append (owns_text _)).append owns_call0
      · intro k cpu
        apply operands_exec hl hr
        intro v w cpu' hrcx hrdx hstack hbase k' _
        exact call0_leaves hstack hbase (run_vntArrayGet hrcx hrdx)
  | binary op => exact computes_binary ctx op b hl hr
  | whileNode | assign => exact computes_fail

/-- The code of every node computes what the node does. -/
theorem emits_computes (ctx : Ctx H V) (boxed : V → BoxedType) (h : Hir) :
    List.Forall₂ (Computes ctx.host boxed) (emits ctx h) (evals ctx h) := by
  induction h with
  | nil => exact .nil
  | leaf i op n ih => exact .cons (computes_leaf ctx boxed op) ih
  | one i op a n iha ih => exact .cons (computes_one ctx boxed op a iha) ih
  | two i op a b n iha ihb ih => exact .cons (computes_two ctx op b (computes_first iha) (computes_first ihb)) ih
  | ifNode i c t e n _ _ _ ih => exact .cons computes_fail ih

end Vnt
