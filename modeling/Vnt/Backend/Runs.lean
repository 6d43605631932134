import Vnt.Backend.Machine

/-!
# `Backend.Runs` — what single lines and calls of the emitted code do

A piece that is run from its beginning (`exec_…`) does what its lines do; a piece that is reached in search of a label of
another one is passed over (`pass_…`). `call0` comes down to the function it calls.
-/

namespace Vnt

open Lib (Asm Line Refines Processor)

variable {H V : Type} {host : Host H V} {boxed : V → BoxedType} {cpu : Cpu V} {k l : Nat}

/-! ## Labels -/

theorem owns_text {ls : List Nat} (is : List (Instr H V)) : Asm.Owns ls (text is) := by
  apply Asm.Owns.lines
  intro l hl
  obtain ⟨line, hline, hlabel⟩ := List.mem_filterMap.mp hl
  obtain ⟨i, -, rfl⟩ := List.mem_map.mp hline
  cases hlabel

theorem owns_jumpTo {ls : List Nat} : Asm.Owns ls (jumpTo l : Code H V) := .lines nofun

theorem owns_jumpIf {ls : List Nat} {c : Cond} : Asm.Owns ls (jumpIf c l : Code H V) := .lines nofun

theorem owns_labelEmit {ls : List Nat} (h : l ∈ ls) : Asm.Owns ls (labelEmit l : Code H V) := by
  apply Asm.Owns.lines
  intro l' hl'
  rw [List.mem_singleton.mp (show l' ∈ [l] from hl')]
  exact h

theorem owns_call0 {ls : List Nat} {f : Callee} : Asm.Owns ls (call0 f : Code H V) := by
  apply Asm.Owns.withLabels
  intro aligned done
  have hdone : done ∈ aligned :: done :: ls := List.mem_cons_of_mem aligned List.mem_cons_self
  exact ((((((owns_text _).append owns_jumpIf).append (owns_text _)).append owns_jumpTo).append
    (owns_labelEmit List.mem_cons_self)).append (owns_text _)).append (owns_labelEmit hdone)

/-! ## Runs of single lines -/

theorem exec_text (is : List (Instr H V)) (cpu : Cpu V) : (text is).exec (processor host boxed) k none cpu =
    (processor host boxed).run none (is.map Line.instr) cpu := rfl

@[simp] theorem pass_text (is : List (Instr H V)) (cpu : Cpu V) :
    (text is).exec (processor host boxed) k (some l) cpu = pure (some l, cpu) := by
  apply Lib.run_pass
  intro hl
  have hin := (@owns_text H V [] is k).2 l hl
  have hk : (text is k).2 = k := rfl
  rw [hk] at hin
  rcases hin with hin | ⟨hfrom, hto⟩
  · cases hin
  · exact absurd hto (Nat.not_lt_of_le hfrom)

@[simp] theorem exec_jumpTo (cpu : Cpu V) : (jumpTo l).exec (processor host boxed) k none cpu = pure (some l, cpu) := rfl

@[simp] theorem pass_jumpTo {m : Nat} (cpu : Cpu V) :
    (jumpTo l).exec (processor host boxed) k (some m) cpu = pure (some m, cpu) := rfl

theorem exec_jumpIf {c : Cond} {flags : Flags} (hflags : cpu.flags = some flags) :
    (jumpIf c l).exec (processor host boxed) k none cpu = pure (if c.holds flags then some l else none, cpu) := by
  show (processor host boxed).taken c cpu >>= _ = _
  have htaken : (processor host boxed).taken c cpu = pure (c.holds flags) := by
    unfold processor
    simp only [hflags]
  rw [htaken, pure_bind]
  cases c.holds flags <;> rfl

@[simp] theorem pass_jumpIf {m : Nat} {c : Cond} (cpu : Cpu V) :
    (jumpIf c l).exec (processor host boxed) k (some m) cpu = pure (some m, cpu) := rfl

@[simp] theorem exec_labelEmit (cpu : Cpu V) :
    (labelEmit l).exec (processor host boxed) k none cpu = pure (none, cpu) := rfl

@[simp] theorem pass_labelEmit {m : Nat} (cpu : Cpu V) :
    (labelEmit l).exec (processor host boxed) k (some m) cpu = pure (if l = m then none else some m, cpu) := rfl

@[simp] theorem text_snd (is : List (Instr H V)) (k : Nat) : (text is k).2 = k := rfl

@[simp] theorem jumpTo_snd (l k : Nat) : ((jumpTo l : Code H V) k).2 = k := rfl

@[simp] theorem jumpIf_snd (c : Cond) (l k : Nat) : ((jumpIf c l : Code H V) k).2 = k := rfl

@[simp] theorem labelEmit_snd (l k : Nat) : ((labelEmit l : Code H V) k).2 = k := rfl

/-! ## Calls -/

theorem step_callRuntime (f : Callee) (halign : cpu.aligned = true) :
    step host boxed (.callRuntime f) cpu = f.run host cpu >>= fun w => pure (cpu.afterCall w) := by
  unfold step
  rw [halign]
  rfl

/-- A call with a home area of four words below it, or of five, whichever aligns the stack. -/
theorem run_home (f : Callee) {words : Nat} (hwords : words = 4 ∨ words = 5)
    (halign : (cpu.base + cpu.stack.length + words) % 2 = 0) :
    (text [.reserve words, .callRuntime f, .release words]).exec (processor host boxed) k none cpu =
      f.run host cpu >>= fun w =>
        pure (none, { cpu with regs := fun q => if q = .rax then w else .junk, flags := none }) := by
  obtain ⟨inside, hinside⟩ : ∃ inside : Cpu V, inside = { cpu with stack := List.replicate words .junk ++ cpu.stack } :=
    ⟨_, rfl⟩
  have hcall : inside.aligned = true := by
    rw [Cpu.aligned, beq_iff_eq, hinside]
    show (cpu.base + (List.replicate words Word.junk ++ cpu.stack).length) % 2 = 0
    rw [List.length_append, List.length_replicate]
    omega
  have hrun : f.run host inside = f.run host cpu := by
    rw [hinside]
    rfl
  have hstep : (text [.reserve words, .callRuntime f, .release words]).exec (processor host boxed) k none cpu =
      step host boxed (.callRuntime f) inside >>= fun t => pure (none, { t with stack := t.stack.drop words }) := by
    rw [hinside]
    rfl
  rw [hstep, step_callRuntime f hcall, hrun, bind_assoc]
  congr 1
  funext w
  rw [pure_bind, hinside]
  rcases hwords with rfl | rfl
  · rfl
  · rfl

/-- `call0` calls on an aligned stack, and takes its home area away again. -/
theorem call0_exec (f : Callee) : (call0 f).exec (processor host boxed) k none cpu = f.run host cpu >>= fun w =>
    pure (none, { cpu with regs := fun q => if q = .rax then w else .junk, flags := none }) := by
  have htest : (text [.testAlign]).exec (processor host boxed) (k + 2) none cpu =
      pure (none, cpu.setFlags ⟨cpu.aligned, false, false⟩) := rfl
  have hjump := @exec_jumpIf H V host boxed (cpu.setFlags ⟨cpu.aligned, false, false⟩) (k + 2) k .z _ rfl
  have hholds : Cond.z.holds ⟨cpu.aligned, false, false⟩ = cpu.aligned := rfl
  rw [hholds] at hjump
  have hne : k ≠ k + 1 := (Nat.succ_ne_self k).symm
  unfold call0
  simp only [Asm.exec_withLabels, Asm.exec_append, bind_assoc, htest, pure_bind, hjump, Asm.append_snd,
    text_snd, jumpTo_snd, jumpIf_snd, labelEmit_snd]
  cases halign : cpu.aligned with
  | true =>
      have heven : (cpu.base + cpu.stack.length + 4) % 2 = 0 := by
        rw [Cpu.aligned, beq_iff_eq] at halign
        omega
      have hhome := @run_home H V host boxed (cpu.setFlags ⟨true, false, false⟩) (k + 2) f 4 (Or.inl rfl) heven
      simp only [if_true, pass_text, pass_jumpTo, pass_labelEmit, exec_labelEmit, pure_bind, bind_assoc, hhome]
      rfl
  | false =>
      have heven : (cpu.base + cpu.stack.length + 5) % 2 = 0 := by
        rw [Cpu.aligned, beq_eq_false_iff_ne] at halign
        omega
      have hhome := @run_home H V host boxed (cpu.setFlags ⟨false, false, false⟩) (k + 2) f 5 (Or.inr rfl) heven
      simp only [Bool.false_eq_true, if_true, if_false, hne, pass_text, exec_jumpTo, pass_labelEmit, pure_bind, bind_assoc,
        hhome]
      rfl

/-! ## Pieces in sequence -/

theorem append_assoc (a b c : Code H V) : a ++ b ++ c = a ++ (b ++ c) := by
  funext k
  exact Prod.ext (List.append_assoc _ _ _) rfl

/-- Instructions one after the other. -/
@[simp] def block (host : Host H V) (boxed : V → BoxedType) : List (Instr H V) → Cpu V → M H V (Cpu V)
  | [], cpu => pure cpu
  | i :: is, cpu => do
      let t ← step host boxed i cpu
      block host boxed is t

theorem run_block (is : List (Instr H V)) (cpu : Cpu V) : (processor host boxed).run none (is.map Line.instr) cpu =
    block host boxed is cpu >>= fun t => pure (none, t) := by
  induction is generalizing cpu with
  | nil => rfl
  | cons i is ih =>
      show step host boxed i cpu >>= (fun t => (processor host boxed).run none (is.map Line.instr) t) =
        (step host boxed i cpu >>= fun t => block host boxed is t) >>= _
      rw [bind_assoc]
      congr 1
      funext t
      exact ih t

variable {a b : Code H V}

@[simp] theorem exec_text_append (is : List (Instr H V)) (b : Code H V) (cpu : Cpu V) :
    (text is ++ b).exec (processor host boxed) k none cpu =
      block host boxed is cpu >>= fun t => b.exec (processor host boxed) k none t := by
  rw [Asm.exec_append, exec_text, run_block, bind_assoc]
  rfl

@[simp] theorem pass_text_append (is : List (Instr H V)) (b : Code H V) (cpu : Cpu V) :
    (text is ++ b).exec (processor host boxed) k (some l) cpu = b.exec (processor host boxed) k (some l) cpu := by
  rw [Asm.exec_append, pass_text]
  rfl

theorem exec_jumpIf_append {c : Cond} {flags : Flags} (b : Code H V) (hflags : cpu.flags = some flags) :
    (jumpIf c l ++ b).exec (processor host boxed) k none cpu =
      b.exec (processor host boxed) k (if c.holds flags then some l else none) cpu := by
  rw [Asm.exec_append, exec_jumpIf hflags]
  rfl

@[simp] theorem pass_jumpIf_append {m : Nat} {c : Cond} (b : Code H V) (cpu : Cpu V) :
    (jumpIf c l ++ b).exec (processor host boxed) k (some m) cpu = b.exec (processor host boxed) k (some m) cpu := by
  rw [Asm.exec_append, pass_jumpIf]
  rfl

@[simp] theorem exec_jumpTo_append (b : Code H V) (cpu : Cpu V) :
    (jumpTo l ++ b).exec (processor host boxed) k none cpu = b.exec (processor host boxed) k (some l) cpu := by
  rw [Asm.exec_append, exec_jumpTo]
  rfl

@[simp] theorem pass_jumpTo_append {m : Nat} (b : Code H V) (cpu : Cpu V) :
    (jumpTo l ++ b).exec (processor host boxed) k (some m) cpu = b.exec (processor host boxed) k (some m) cpu := by
  rw [Asm.exec_append, pass_jumpTo]
  rfl

@[simp] theorem pass_labelEmit_append {m : Nat} (b : Code H V) (cpu : Cpu V) :
    (labelEmit l ++ b).exec (processor host boxed) k (some m) cpu =
      b.exec (processor host boxed) k (if l = m then none else some m) cpu := by
  rw [Asm.exec_append, pass_labelEmit]
  rfl

theorem exec_call0_append (f : Callee) (b : Code H V) (cpu : Cpu V) :
    (call0 f ++ b).exec (processor host boxed) k none cpu = f.run host cpu >>= fun w =>
      b.exec (processor host boxed) ((call0 f : Code H V) k).2 none
        { cpu with regs := fun q => if q = .rax then w else .junk, flags := none } := by
  rw [Asm.exec_append, call0_exec, bind_assoc]
  rfl

/-- A piece that sets only its own labels is passed over in search of an earlier one. -/
theorem pass_append (b : Code H V) (ha : Asm.Owns [] a) (hlt : l < k) (cpu : Cpu V) :
    (a ++ b).exec (processor host boxed) k (some l) cpu = b.exec (processor host boxed) (a k).2 (some l) cpu := by
  rw [Asm.exec_append, ha.exec_pass nofun hlt]
  rfl

end Vnt
