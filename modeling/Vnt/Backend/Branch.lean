import Vnt.Backend.EmitSound

/-!
# `Backend.Branch` — the compare-and-branch code decides as the condition does

A condition that compares a variable with a literal reads the variable first, and once more if it is no integer. The second
read is of the same value; if nothing has been assigned yet, it only repeats the entry among the unassigned reads.
-/

namespace Vnt

open Lib (Asm Refines)

variable {H V : Type} {host : Host H V} {boxed : V → BoxedType} {cpu : Cpu V} {k falseLabel : Nat}

/-! ## Decisions -/

/-- Two states that differ at most in how often the same unassigned storage was read. -/
structure SameButRepeats (s t : State H V) : Prop where
  state : t = { s with unassignedReads := t.unassignedReads }
  reads : ∀ a, a ∈ t.unassignedReads ↔ a ∈ s.unassignedReads

theorem SameButRepeats.refl (s : State H V) : SameButRepeats s s := ⟨rfl, fun _ => Iff.rfl⟩

theorem SameButRepeats.trans {s t u : State H V} (h : SameButRepeats s t) (h' : SameButRepeats t u) : SameButRepeats s u := by
  obtain ⟨hstate, hreads⟩ := h
  obtain ⟨hstate', hreads'⟩ := h'
  refine ⟨?_, fun a => (hreads' a).trans (hreads a)⟩
  rw [hstate', hstate]

/-- What the code of a condition leaves behind: a jump exactly if the condition is false, and the stack as it was. -/
structure Decides (falseLabel : Nat) (cpu : Cpu V) (b : Bool) (r : Option Nat × Cpu V) : Prop where
  decision : r.1 = if b then none else some falseLabel
  stack : r.2.stack = cpu.stack
  base : r.2.base = cpu.base

/-- From `s` the code decides as `m` does, or stops where it stops. -/
def Branches (falseLabel : Nat) (cpu : Cpu V) (m : M H V Bool) (x : M H V (Option Nat × Cpu V)) (s : State H V) : Prop :=
  match m s with
  | .ok b t => ∃ r t', x s = .ok r t' ∧ Decides falseLabel cpu b r ∧ SameButRepeats t t'
  | .error e t => ∃ t', x s = .error e t' ∧ SameButRepeats t t'

theorem Branches.of_refines {m : M H V Bool} {x : M H V (Option Nat × Cpu V)} (h : Refines (Decides falseLabel cpu) m x)
    (s : State H V) : Branches falseLabel cpu m x s := by
  have hs := h s
  unfold Branches
  revert hs
  cases m s with
  | ok b t =>
      rintro ⟨r, hx, hr⟩
      exact ⟨r, t, hx, hr, .refl t⟩
  | error e t =>
      intro hx
      exact ⟨t, hx, .refl t⟩

/-! ## The condition as an expression -/

theorem owns_emitTruth (ctx : Ctx H V) (boxed : V → BoxedType) (h : Hir) (falseLabel : Nat) :
    Asm.Owns [] (emitTruth ctx h falseLabel) :=
  ((((computes_first (emits_computes ctx boxed h)).owns.append (owns_text _)).append owns_call0).append
    (owns_text _)).append owns_jumpIf

theorem append_nil (a : Code H V) : a ++ text [] = a := by
  funext k
  exact Prod.ext (List.append_nil _) rfl

theorem emitTruth_exec (ctx : Ctx H V) (h : Hir) {cpu cpu' : Cpu V} (hstack : cpu'.stack = cpu.stack)
    (hbase : cpu'.base = cpu.base) : Refines (Decides falseLabel cpu) (condition (evals ctx h))
      ((emitTruth ctx h falseLabel).exec (processor ctx.host boxed) k none cpu') := by
  unfold emitTruth
  rw [← append_nil (jumpIf .z falseLabel)]
  simp only [append_assoc]
  apply (computes_first (emits_computes ctx boxed h)).andThen
  intro v cpu₁ hrax hstack₁ hbase₁
  rw [truth_exec _ hrax]
  apply (Refines.refl (truth v)).finish
  rintro _ b rfl
  have hdecision : (if Cond.z.holds ⟨!b, false, false⟩ = true then some falseLabel else none) =
      if b = true then none else some falseLabel := by
    cases b <;> rfl
  rw [hdecision]
  cases b with
  | true => exact .pure ⟨rfl, hstack₁.trans hstack, hbase₁.trans hbase⟩
  | false =>
      rw [if_neg Bool.false_ne_true, pass_text]
      exact .pure ⟨rfl, hstack₁.trans hstack, hbase₁.trans hbase⟩

/-! ## The inline comparison -/

/-- The jump is taken exactly if the helper returns `false`. -/
theorem falseBranch_holds {op : BinaryOperator} {leave : Cond} (hop : falseBranch op = some leave) (y x : Int64) :
    ∃ b, binaryValue host op (.int y) (.int x) = pure (.bool b) ∧
      leave.holds (flagsOf (Arithmetic.sub.apply y x)) = !b := by
  cases op with
  | equal =>
      cases hop
      exact ⟨y == x, rfl, congrArg not (flags_zf y x)⟩
  | notEqual =>
      cases hop
      refine ⟨y != x, rfl, ?_⟩
      rw [Cond.holds, flags_zf, bne, Bool.not_not]
  | greater =>
      cases hop
      refine ⟨decide (y > x), rfl, ?_⟩
      rw [Cond.holds, flags_lessEqual, ← decide_not, decide_eq_decide, gt_iff_lt, Int64.not_lt]
  | less =>
      cases hop
      refine ⟨decide (y < x), rfl, ?_⟩
      rw [← flags_less, bne, Bool.not_not, Cond.holds]
  | greaterEqual =>
      cases hop
      refine ⟨decide (y ≥ x), rfl, ?_⟩
      rw [Cond.holds, flags_less, ← decide_not, decide_eq_decide, ge_iff_le, Int64.not_le]
  | lessEqual =>
      cases hop
      exact ⟨decide (y ≤ x), rfl, congrArg not (flags_lessEqual y x)⟩
  | _ => cases hop

/-- The guards let exactly the integers through to the comparison. -/
theorem comparison_exec {literal : Int32} {v : Value V} {slow : Nat} (b : Code H V) (hr11 : cpu.regs .r11 = .pointer v) :
    ∃ skip cpu', (text [.test .r11] ++ (jumpIf .z slow ++ (text [.cmpTag .r11] ++ (jumpIf .nz slow ++
        (text [.movPayload .r11 .rax, .cmp literal .rax] ++ b))))).exec (processor host boxed) k none cpu =
          b.exec (processor host boxed) k skip cpu' ∧
      cpu'.stack = cpu.stack ∧ cpu'.base = cpu.base ∧
      (skip = some slow ∧ (∀ y, v ≠ .int y) ∨ skip = none ∧ ∃ y, v = .int y ∧
        cpu'.flags = some (flagsOf (Arithmetic.sub.apply y literal.toInt64))) := by
  have hr11' : ∀ flags, (cpu.setFlags flags).regs .r11 = .pointer v := fun _ => hr11
  rcases guard_cases boxed v with rfl | ⟨y, rfl⟩ | ⟨hzero, t, htag, hint⟩
  · rw [exec_test_append _ hr11 rfl, if_pos rfl, pass_text_append, pass_jumpIf_append, pass_text_append]
    exact ⟨_, _, rfl, rfl, rfl, Or.inl ⟨rfl, nofun⟩⟩
  · have hcmp : ∀ t : Cpu V, t.regs .r11 = .pointer (.int y) →
        block host boxed [.movPayload .r11 .rax, .cmp literal .rax] t =
          pure ((t.set .rax (.number y)).setFlags (flagsOf (Arithmetic.sub.apply y literal.toInt64))) := by
      intro t ht
      simp [ht, Cpu.set]
    rw [exec_test_append _ hr11 rfl, if_neg Bool.false_ne_true, exec_cmpTag_append _ (hr11' _) rfl]
    show ∃ skip cpu', Asm.exec _ _ k none _ = _ ∧ _
    rw [exec_text_append, hcmp ((cpu.setFlags _).setFlags _) hr11, pure_bind]
    exact ⟨_, _, rfl, rfl, rfl, Or.inr ⟨rfl, y, rfl, rfl⟩⟩
  · rw [exec_test_append _ hr11 hzero, if_neg Bool.false_ne_true, exec_cmpTag_append _ (hr11' _) htag, hint,
      if_neg Bool.false_ne_true, pass_text_append]
    refine ⟨_, _, rfl, rfl, rfl, Or.inl ⟨rfl, ?_⟩⟩
    rintro y rfl
    cases htag
    cases hint

/-! ## Both paths -/

/-- What `emit_condition_false_branch` lays out behind the load of the variable. -/
def guardedBranch (ctx : Ctx H V) (c : Hir) (literal : Int32) (leave : Cond) (slow done falseLabel : Nat) : Code H V :=
  text [.test .r11] ++ (jumpIf .z slow ++ (text [.cmpTag .r11] ++ (jumpIf .nz slow ++
    (text [.movPayload .r11 .rax, .cmp literal .rax] ++ (jumpIf leave falseLabel ++ (jumpTo done ++
      (labelEmit slow ++ (emitTruth ctx c falseLabel ++ labelEmit done))))))))

theorem branch_exec {ctx : Ctx H V} {c : Hir} {a : Addr} {literal : Int32} {leave : Cond}
    (hc : comparison ctx c = some (a, literal, leave)) :
    (emitConditionFalseBranch ctx c falseLabel).exec (processor ctx.host boxed) k none cpu = readVar a >>= fun v =>
      (guardedBranch ctx c literal leave k (k + 1) falseLabel).exec (processor ctx.host boxed) (k + 2) none
        ((cpu.set .rax (.pointer v)).set .r11 (.pointer v)) := by
  unfold emitConditionFalseBranch
  simp only [hc]
  rw [Asm.exec_withLabels]
  unfold inlineComparison
  simp only [append_assoc]
  have hsplit : ∀ b : Code H V, text [.load a .rax, .mov .rax .r11, .test .r11] ++ b =
      text [.load a .rax, .mov .rax .r11] ++ (text [.test .r11] ++ b) := fun _ => rfl
  rw [hsplit, exec_text_append]
  show ((readVar a >>= fun v => pure (cpu.set .rax (.pointer v))) >>= fun t => pure (t.set .r11 (t.regs .rax)) >>= _) >>= _ = _
  simp only [bind_assoc, pure_bind]
  rfl

/-- A variable that is no integer: the condition is evaluated as an expression. -/
theorem guardedBranch_slow {ctx : Ctx H V} {c : Hir} {literal : Int32} {leave : Cond} {v : Value V} {cpu' : Cpu V}
    (hlt : falseLabel < k) (hv : ∀ y, v ≠ .int y) (hr11 : cpu'.regs .r11 = .pointer v) (hstack : cpu'.stack = cpu.stack)
    (hbase : cpu'.base = cpu.base) : Refines (Decides falseLabel cpu) (condition (evals ctx c))
      ((guardedBranch ctx c literal leave k (k + 1) falseLabel).exec (processor ctx.host boxed) (k + 2) none cpu') := by
  unfold guardedBranch
  obtain ⟨skip, cpu₂, hexec, hstack₂, hbase₂, ⟨rfl, -⟩ | ⟨-, y, rfl, -⟩⟩ := comparison_exec _ hr11
  · rw [hexec, pass_jumpIf_append, pass_jumpTo_append, pass_labelEmit_append, if_pos rfl, Asm.exec_append]
    apply (emitTruth_exec ctx c (hstack₂.trans hstack) (hbase₂.trans hbase)).finish
    rintro b ⟨skip, cpu₃⟩ ⟨hdecision, hstack₃, hbase₃⟩
    cases b with
    | true =>
        cases hdecision
        exact .pure ⟨rfl, hstack₃, hbase₃⟩
    | false =>
        have hdone : k + 1 ≠ falseLabel := by omega
        cases hdecision
        rw [pass_labelEmit, if_neg hdone]
        exact .pure ⟨rfl, hstack₃, hbase₃⟩
  · exact absurd rfl (hv y)

/-- An integer is compared with the literal. -/
theorem guardedBranch_int {ctx : Ctx H V} {c : Hir} {literal : Int32} {leave : Cond} {op : BinaryOperator} {y : Int64}
    {cpu' : Cpu V} (hop : falseBranch op = some leave) (hlt : falseLabel < k) (hr11 : cpu'.regs .r11 = .pointer (.int y))
    (hstack : cpu'.stack = cpu.stack) (hbase : cpu'.base = cpu.base) :
    Refines (Decides falseLabel cpu) (binaryValue ctx.host op (.int y) (.int literal.toInt64) >>= truth)
      ((guardedBranch ctx c literal leave k (k + 1) falseLabel).exec (processor ctx.host boxed) (k + 2) none cpu') := by
  unfold guardedBranch
  obtain ⟨skip, cpu₂, hexec, hstack₂, hbase₂, ⟨-, hne⟩ | ⟨rfl, z, hz, hflags⟩⟩ := comparison_exec _ hr11
  · exact absurd rfl (hne y)
  · cases hz
    obtain ⟨b, hvalue, hholds⟩ := @falseBranch_holds H V ctx.host op leave hop y literal.toInt64
    have hslow : k ≠ falseLabel := (Nat.ne_of_lt hlt).symm
    have hdone : k + 1 ≠ falseLabel := by omega
    rw [hexec, hvalue, pure_bind, exec_jumpIf_append _ hflags, hholds]
    cases b with
    | true =>
        rw [if_neg (by decide), exec_jumpTo_append, pass_labelEmit_append, if_neg (by omega),
          pass_append _ (owns_emitTruth ctx boxed c falseLabel) (by omega), pass_labelEmit, if_pos rfl]
        exact .pure ⟨rfl, hstack₂.trans hstack, hbase₂.trans hbase⟩
    | false =>
        rw [if_pos (by decide), pass_jumpTo_append, pass_labelEmit_append, if_neg hslow,
          pass_append _ (owns_emitTruth ctx boxed c falseLabel) (by omega), pass_labelEmit, if_neg hdone]
        exact .pure ⟨rfl, hstack₂.trans hstack, hbase₂.trans hbase⟩

theorem comparison_shape {ctx : Ctx H V} {c : Hir} {found : Addr × Int32 × Cond} (hc : comparison ctx c = some found) :
    ∃ i op i' x n' b n, c = .two i (.binary op) (.leaf i' (.variable x) n') b n := by
  cases c with
  | two i op a b n =>
      cases op with
      | binary op =>
          cases a with
          | leaf i' leaf n' =>
              cases leaf with
              | «variable» x => exact ⟨i, op, i', x, n', b, n, rfl⟩
              | _ => cases hc
          | _ => cases hc
      | _ => cases hc
  | _ => cases hc

/-- The condition of the inline comparison: one read, and the helper on the literal. -/
theorem comparison_condition {ctx : Ctx H V} {c : Hir} {a : Addr} {literal : Int32} {leave : Cond}
    (hc : comparison ctx c = some (a, literal, leave)) : ∃ op, falseBranch op = some leave ∧
      condition (evals ctx c) = readVar a >>= fun v => binaryValue ctx.host op v (.int literal.toInt64) >>= truth := by
  obtain ⟨i, op, i', x, n', b, n, rfl⟩ : ∃ i op i' x n' b n,
      c = .two i (.binary op) (.leaf i' (.variable x) n') b n := comparison_shape hc
  simp only [comparison] at hc
  cases hliteral : shortLiteral b with
  | none =>
      rw [hliteral] at hc
      cases hc
  | some found =>
      cases hleave : falseBranch op with
      | none =>
          rw [hliteral, hleave] at hc
          cases hc
      | some jump =>
          rw [hliteral, hleave] at hc
          cases hc
          refine ⟨op, hleave, ?_⟩
          have hright := @first_shortLiteral H V ctx b _ hliteral
          have hvalue : condition (evals ctx (.two i (.binary op) (.leaf i' (.variable x) n') b n)) =
              (readVar (ctx.addr x) >>= fun v => first (evals ctx b) >>= fun w => binaryValue ctx.host op v w) >>=
                truth := by
            cases op <;> first | rfl | cases hleave
          rw [hvalue, hright]
          simp only [pure_bind, bind_assoc]

/-- An operation of the host keeps two states apart only where they were. -/
theorem liftHost_repeats {α : Type} (q : HostM H α) {s s' : State H V} (h : SameButRepeats s s') :
    match liftHost q s with
    | .ok b t => ∃ t', liftHost q s' = .ok b t' ∧ SameButRepeats t t'
    | .error e t => ∃ t', liftHost q s' = .error e t' ∧ SameButRepeats t t' := by
  obtain ⟨hstate, hreads⟩ := h
  have hheap : s'.heap = s.heap := by rw [hstate]
  unfold liftHost
  rw [hheap]
  cases q s.heap with
  | ok b heap => exact ⟨_, rfl, by rw [hstate], hreads⟩
  | error e heap => exact ⟨_, rfl, by rw [hstate], hreads⟩

/-- The variable is read again unless it is an integer. -/
theorem branches_reread {a : Addr} {f : Value V → M H V Bool} {g : Value V → M H V (Option Nat × Cpu V)}
    (hint : ∀ y, Refines (Decides falseLabel cpu) (f (.int y)) (g (.int y)))
    (hother : ∀ v, (∀ y, v ≠ .int y) → Refines (Decides falseLabel cpu) (readVar a >>= f) (g v))
    {q : HostM H Bool} (hnull : f .null = liftHost q) (s : State H V) :
    Branches falseLabel cpu (readVar a >>= f) (readVar a >>= g) s := by
  cases hvar : s.vars a with
  | some v =>
      have hread : ∀ {α : Type} (f : Value V → M H V α), (readVar a >>= f) s = f v s := by
        intro α f
        show EStateM.bind (readVar a) f s = _
        simp only [EStateM.bind, readVar, hvar]
      by_cases hv : ∃ y, v = .int y
      · obtain ⟨y, rfl⟩ := hv
        have hbranch := Branches.of_refines (hint y) s
        unfold Branches at hbranch ⊢
        rw [hread f, hread g]
        exact hbranch
      · have hbranch := Branches.of_refines (hother v fun y h => hv ⟨y, h⟩) s
        unfold Branches at hbranch ⊢
        rw [hread g]
        exact hbranch
  | none =>
      have hread : ∀ {α : Type} (f : Value V → M H V α) reads, (readVar a >>= f) { s with unassignedReads := reads } =
          f .null { s with unassignedReads := a :: reads } := by
        intro α f reads
        show EStateM.bind (readVar a) f _ = _
        simp only [EStateM.bind, readVar, hvar]
      -- The second read only repeats the entry of the first.
      have hsame : SameButRepeats { s with unassignedReads := a :: s.unassignedReads }
          { s with unassignedReads := a :: a :: s.unassignedReads } := ⟨rfl, by simp⟩
      have hbranch := Branches.of_refines (hother .null nofun) { s with unassignedReads := a :: s.unassignedReads }
      have hhost := liftHost_repeats q hsame
      unfold Branches at hbranch ⊢
      rw [hread f, hnull] at hbranch
      rw [show (readVar a >>= f) s = _ from hread f s.unassignedReads, hnull,
        show (readVar a >>= g) s = _ from hread g s.unassignedReads]
      revert hhost
      cases liftHost q { s with unassignedReads := a :: s.unassignedReads } with
      | ok b t =>
          rintro ⟨t', ht', hsame'⟩
          rw [ht'] at hbranch
          obtain ⟨r, t₂, hx, hdecides, hsame₂⟩ := hbranch
          exact ⟨r, t₂, hx, hdecides, hsame'.trans hsame₂⟩
      | error e t =>
          rintro ⟨t', ht', hsame'⟩
          rw [ht'] at hbranch
          obtain ⟨t₂, hx, hsame₂⟩ := hbranch
          exact ⟨t₂, hx, hsame'.trans hsame₂⟩

/-- `vnt_truth` as an operation of the host. -/
def hostTruth : Value V → HostM H Bool
  | .bool b => pure b
  | _ => throw (.runtimeError "condition must be boolean.")

/-- `vnt_truth` of what the host returns. -/
theorem liftHost_truth (q : HostM H (Value V)) : ∃ q' : HostM H Bool, liftHost q >>= truth = (liftHost q' : M H V Bool) := by
  refine ⟨q >>= hostTruth, ?_⟩
  funext s
  show EStateM.bind (liftHost q) truth s = liftHost (EStateM.bind q _) s
  unfold EStateM.bind liftHost
  cases hq : q s.heap with
  | ok v heap =>
      simp only [hq]
      cases v <;> rfl
  | error e heap => simp only [hq]

/-- `emit_condition_false_branch`. -/
theorem emitConditionFalseBranch_branches (ctx : Ctx H V) (boxed : V → BoxedType) (c : Hir) (hlt : falseLabel < k)
    (cpu : Cpu V) (s : State H V) : Branches falseLabel cpu (condition (evals ctx c))
      ((emitConditionFalseBranch ctx c falseLabel).exec (processor ctx.host boxed) k none cpu) s := by
  cases hc : comparison ctx c with
  | none =>
      have hemit : emitConditionFalseBranch ctx c falseLabel = emitTruth ctx c falseLabel := by
        unfold emitConditionFalseBranch
        simp only [hc]
      rw [hemit]
      exact .of_refines (emitTruth_exec ctx c rfl rfl) s
  | some found =>
      obtain ⟨a, literal, leave⟩ := found
      obtain ⟨op, hop, hcondition⟩ := comparison_condition hc
      rw [branch_exec hc, hcondition]
      obtain ⟨q, hq⟩ := @liftHost_truth H V (ctx.host.binary op .null (.int literal.toInt64))
      have hnull : binaryValue ctx.host op .null (.int literal.toInt64) >>= truth = liftHost q := hq
      refine branches_reread ?_ ?_ hnull s
      · intro y
        exact guardedBranch_int hop hlt rfl rfl rfl
      · intro v hv
        rw [← hcondition]
        exact guardedBranch_slow hlt hv rfl rfl rfl

/-! ## The emitted code and the library -/

/-- The inline code of `+`, `-` and `*` and of comparing branches does what the helpers of the library do on operands that
    are evaluated once, from left to right. -/
theorem guarded_code_exact (ctx : Ctx H V) (boxed : V → BoxedType) :
    (∀ op inline, arithmetic op = some inline → ∀ i a b n,
      Computes ctx.host boxed (firstCode (emits ctx (.two i (.binary op) a b n))) (do
        let l ← first (evals ctx a)
        let r ← first (evals ctx b)
        binaryValue ctx.host op l r)) ∧
    (∀ op leave, falseBranch op = some leave → ∀ i a b n k falseLabel cpu s, falseLabel < k →
      Branches falseLabel cpu (do
        let l ← first (evals ctx a)
        let r ← first (evals ctx b)
        let v ← binaryValue ctx.host op l r
        truth v)
        ((emitConditionFalseBranch ctx (.two i (.binary op) a b n) falseLabel).exec (processor ctx.host boxed) k none cpu)
        s) := by
  constructor
  · intro op inline hop i a b n
    exact computes_inline hop (computes_first (emits_computes ctx boxed a)) (computes_first (emits_computes ctx boxed b))
  · intro op leave hop i a b n k falseLabel cpu s hlt
    have hbranches := emitConditionFalseBranch_branches ctx boxed (.two i (.binary op) a b n) hlt cpu s
    have hcondition : condition (evals ctx (.two i (.binary op) a b n)) =
        (first (evals ctx a) >>= fun l => first (evals ctx b) >>= fun r => binaryValue ctx.host op l r) >>= truth := by
      cases op <;> first | rfl | cases hop
    rw [hcondition] at hbranches
    simp only [bind_assoc] at hbranches
    exact hbranches

end Vnt
