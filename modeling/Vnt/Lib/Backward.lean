import Vnt.Lib.Dataflow

/-!
# `Lib.Backward` — backward may-analysis by round-robin iteration

`n` blocks, each with the facts it uses and the facts it kills. A fact holds at the end of a block when it holds at the start
of a successor, and at the start when the block uses it, or it holds at the end and the block does not kill it. The solver
starts from no facts and recomputes the blocks from the last to the first, in place, until a sweep changes neither array.

A sweep only ever adds facts, so the number of cells bounds the number of sweeps (`sweep_solve`), and a fact that the solver
ends with is one that reaches a use (`mem_ins_iff`).
-/

namespace Vnt.Lib

open scoped List

variable {ν : Type}

theorem below_of_set {ins : List (List ν)} {b : Nat} {l l' : List ν} (hb : ins[b]? = some l) (hl : l <+ l') :
    Below ins (ins.set b l') := by
  obtain ⟨hlt, heq⟩ := List.getElem?_eq_some_iff.mp hb
  have hset : (ins.set b l')[b]? = some l' := List.getElem?_set_self hlt
  have hback : (ins.set b l').set b l = ins := by
    rw [List.set_set, ← heq]
    exact List.set_getElem_self hlt
  have hbelow := below_set hset hl
  rw [hback] at hbelow
  exact hbelow

theorem below_replicate {ins : List (List ν)} {facts : List ν} (h : ∀ l ∈ ins, l <+ facts) :
    Below ins (List.replicate ins.length facts) := by
  induction ins with
  | nil => exact .nil
  | cons l ins ih =>
      exact .cons (h l List.mem_cons_self) (ih fun k hk => h k (List.mem_cons_of_mem l hk))

/-- An instance of the analysis. -/
structure May (ν : Type) where
  count : Nat
  facts : List ν
  succs : Nat → List Nat
  use : Nat → List ν
  kill : Nat → List ν

/-- The facts at the start and at the end of each block. -/
structure FlowSets (ν : Type) where
  ins : List (List ν)
  outs : List (List ν)
  deriving DecidableEq

namespace May

variable [DecidableEq ν] (a : May ν)

/-- The facts at the end of `b`, from those at the start of its successors. -/
def outOf (ins : List (List ν)) (b : Nat) : List ν := a.facts.filter fun v => ∃ t ∈ a.succs b, v ∈ ins[t]?.getD []

/-- The facts at the start of `b`. -/
def inOf (ins : List (List ν)) (b : Nat) : List ν :=
  a.facts.filter fun v => v ∈ a.use b ∨ (v ∈ a.outOf ins b ∧ v ∉ a.kill b)

/-- Recompute one block. -/
def update (s : FlowSets ν) (b : Nat) : FlowSets ν := ⟨s.ins.set b (a.inOf s.ins b), s.outs.set b (a.outOf s.ins b)⟩

/-- Recompute every block, from the last to the first. -/
def sweep (s : FlowSets ν) : FlowSets ν := (List.range a.count).reverse.foldl a.update s

/-- Sweep until nothing changes, at most `fuel` times. -/
def iterate : Nat → FlowSets ν → FlowSets ν
  | 0, s => s
  | k + 1, s => if a.sweep s = s then a.sweep s else iterate k (a.sweep s)

/-- No facts anywhere. -/
def start : FlowSets ν := ⟨List.replicate a.count [], List.replicate a.count []⟩

/-- The solution. -/
def solve : FlowSets ν := a.iterate (2 * (a.count * a.facts.length) + 1) a.start

/-! ## Ascent -/

variable {a} {s : FlowSets ν}

/-- No block has more facts than it is to get. -/
structure Ascending (a : May ν) (s : FlowSets ν) : Prop where
  ins : ∀ b l, s.ins[b]? = some l → l <+ a.inOf s.ins b
  outs : ∀ b l, s.outs[b]? = some l → l <+ a.outOf s.ins b
  insLength : s.ins.length = a.count
  outsLength : s.outs.length = a.count

/-- More facts in both arrays. -/
def Rises (s s' : FlowSets ν) : Prop := Below s.ins s'.ins ∧ Below s.outs s'.outs

omit [DecidableEq ν] in
theorem Rises.refl (s : FlowSets ν) : Rises s s := ⟨.refl _, .refl _⟩

omit [DecidableEq ν] in
theorem Rises.trans {s' s'' : FlowSets ν} (h : Rises s s') (h' : Rises s' s'') : Rises s s'' :=
  ⟨h.1.trans h'.1, h.2.trans h'.2⟩

omit [DecidableEq ν] in
theorem Rises.antisymm {s' : FlowSets ν} (h : Rises s s') (h' : Rises s' s) : s = s' := by
  cases s
  cases s'
  rw [FlowSets.mk.injEq]
  exact ⟨h.1.antisymm h'.1, h.2.antisymm h'.2⟩

omit [DecidableEq ν] in
theorem mem_of_below {x y : List (List ν)} (h : Below x y) {t : Nat} {v : ν} (hv : v ∈ x[t]?.getD []) :
    v ∈ y[t]?.getD [] := by
  rcases h.getElem? t with ⟨hx, -⟩ | ⟨l, l', hx, hy, hl⟩
  · rw [hx] at hv
    cases hv
  · rw [hx] at hv
    rw [hy]
    exact hl.subset hv

/-- More facts before, more facts after. -/
theorem outOf_mono {x y : List (List ν)} (h : Below x y) (b : Nat) : a.outOf x b <+ a.outOf y b := by
  apply List.monotone_filter_right
  intro v hv
  rw [decide_eq_true_eq] at hv ⊢
  obtain ⟨t, ht, hv⟩ := hv
  exact ⟨t, ht, mem_of_below h hv⟩

theorem inOf_mono {x y : List (List ν)} (h : Below x y) (b : Nat) : a.inOf x b <+ a.inOf y b := by
  apply List.monotone_filter_right
  intro v hv
  rw [decide_eq_true_eq] at hv ⊢
  exact hv.imp_right fun hv => ⟨(outOf_mono h b).subset hv.1, hv.2⟩

theorem update_spec (h : Ascending a s) {b : Nat} (hb : b < a.count) :
    Rises s (a.update s b) ∧ Ascending a (a.update s b) := by
  have hin : s.ins[b]? = some _ := List.getElem?_eq_getElem (h.insLength.symm ▸ hb)
  have hout : s.outs[b]? = some _ := List.getElem?_eq_getElem (h.outsLength.symm ▸ hb)
  have hins : Below s.ins (a.update s b).ins := below_of_set hin (h.ins b _ hin)
  have houts : Below s.outs (a.update s b).outs := below_of_set hout (h.outs b _ hout)
  refine ⟨⟨hins, houts⟩, ?_, ?_, ?_, ?_⟩
  · intro c l hc
    have hmono := inOf_mono (a := a) hins c
    by_cases hcb : b = c
    · subst hcb
      rw [update, List.getElem?_set_self (h.insLength.symm ▸ hb)] at hc
      cases hc
      exact hmono
    · rw [update, List.getElem?_set_ne hcb] at hc
      exact (h.ins c l hc).trans hmono
  · intro c l hc
    have hmono := outOf_mono (a := a) hins c
    by_cases hcb : b = c
    · subst hcb
      rw [update, List.getElem?_set_self (h.outsLength.symm ▸ hb)] at hc
      cases hc
      exact hmono
    · rw [update, List.getElem?_set_ne hcb] at hc
      exact (h.outs c l hc).trans hmono
  · rw [update, List.length_set]
    exact h.insLength
  · rw [update, List.length_set]
    exact h.outsLength

theorem foldl_update_spec : ∀ {bs : List Nat} {s : FlowSets ν}, Ascending a s → (∀ b ∈ bs, b < a.count) →
    Rises s (bs.foldl a.update s) ∧ Ascending a (bs.foldl a.update s)
  | [], s, h, _ => ⟨.refl s, h⟩
  | b :: bs, s, h, hbs => by
      obtain ⟨hrises, hupdate⟩ := update_spec h (hbs b List.mem_cons_self)
      obtain ⟨hrises', hrest⟩ := foldl_update_spec hupdate fun c hc => hbs c (List.mem_cons_of_mem b hc)
      exact ⟨hrises.trans hrises', hrest⟩

omit [DecidableEq ν] in
theorem mem_sweep_lt {b : Nat} (hb : b ∈ (List.range a.count).reverse) : b < a.count :=
  List.mem_range.mp (List.mem_reverse.mp hb)

theorem sweep_spec (h : Ascending a s) : Rises s (a.sweep s) ∧ Ascending a (a.sweep s) :=
  foldl_update_spec h fun _ => mem_sweep_lt

/-! ## The fixpoint -/

/-- The number of facts in the two arrays. -/
def total (s : FlowSets ν) : Nat := weight s.ins + weight s.outs

omit [DecidableEq ν] in
theorem weight_le_of_rows {ins : List (List ν)} {facts : List ν} (h : ∀ l ∈ ins, l <+ facts) :
    weight ins ≤ ins.length * facts.length := by
  have hle := (below_replicate h).weight_le
  rwa [weight_replicate] at hle

theorem Ascending.total_le (h : Ascending a s) : total s ≤ 2 * (a.count * a.facts.length) := by
  have hins : weight s.ins ≤ s.ins.length * a.facts.length := by
    apply weight_le_of_rows
    intro l hl
    obtain ⟨b, hb⟩ := List.mem_iff_getElem?.mp hl
    exact (h.ins b l hb).trans List.filter_sublist
  have houts : weight s.outs ≤ s.outs.length * a.facts.length := by
    apply weight_le_of_rows
    intro l hl
    obtain ⟨b, hb⟩ := List.mem_iff_getElem?.mp hl
    exact (h.outs b l hb).trans List.filter_sublist
  rw [h.insLength] at hins
  rw [h.outsLength] at houts
  unfold total
  omega

omit [DecidableEq ν] in
/-- A sweep that changes something adds a fact. -/
theorem Rises.total_lt {s' : FlowSets ν} (h : Rises s s') (hne : s' ≠ s) : total s < total s' := by
  have hins := h.1.weight_le
  have houts := h.2.weight_le
  unfold total
  by_contra hle
  apply hne
  cases s
  cases s'
  rw [FlowSets.mk.injEq]
  exact ⟨(h.1.eq_of_weight (by omega)).symm, (h.2.eq_of_weight (by omega)).symm⟩

/-- Enough sweeps reach a fixpoint. -/
theorem iterate_spec : ∀ {k : Nat} {s : FlowSets ν}, Ascending a s →
    2 * (a.count * a.facts.length) < total s + k → a.sweep (a.iterate k s) = a.iterate k s ∧ Ascending a (a.iterate k s)
  | 0, s, h, hk => by
      have hle := h.total_le
      omega
  | k + 1, s, h, hk => by
      obtain ⟨hrises, hsweep⟩ := sweep_spec h
      rw [iterate]
      by_cases hfix : a.sweep s = s
      · rw [if_pos hfix, hfix]
        exact ⟨hfix, h⟩
      · rw [if_neg hfix]
        have hlt := hrises.total_lt hfix
        apply iterate_spec hsweep
        omega

theorem ascending_start (a : May ν) : Ascending a a.start where
  ins b l hb := by
    rw [start, List.getElem?_replicate] at hb
    split at hb
    · cases hb
      exact List.nil_sublist _
    · cases hb
  outs b l hb := by
    rw [start, List.getElem?_replicate] at hb
    split at hb
    · cases hb
      exact List.nil_sublist _
    · cases hb
  insLength := List.length_replicate
  outsLength := List.length_replicate

/-- **The loop ends**: one more sweep changes nothing. -/
theorem sweep_solve (a : May ν) : a.sweep a.solve = a.solve :=
  (iterate_spec (ascending_start a) (by omega)).1

theorem ascending_solve (a : May ν) : Ascending a a.solve := (iterate_spec (ascending_start a) (by omega)).2

/-- At a fixpoint of the sweep every block satisfies its equations. -/
theorem eq_of_foldl : ∀ {bs : List Nat} {s : FlowSets ν}, Ascending a s → (∀ b ∈ bs, b < a.count) →
    bs.foldl a.update s = s → ∀ b ∈ bs, a.update s b = s
  | [], _, _, _, _ => nofun
  | c :: bs, s, h, hbs, hfix => by
      rw [List.foldl_cons] at hfix
      obtain ⟨hrises, hupdate⟩ := update_spec h (hbs c List.mem_cons_self)
      have hrest := fun d hd => hbs d (List.mem_cons_of_mem c hd)
      obtain ⟨hrises', -⟩ := foldl_update_spec hupdate hrest
      rw [hfix] at hrises'
      -- the rest of the sweep cannot take back what this block got
      have heq : a.update s c = s := hrises'.antisymm hrises
      rw [heq] at hfix
      intro b hb
      rcases List.mem_cons.mp hb with rfl | hb
      · exact heq
      · exact eq_of_foldl h hrest hfix b hb

theorem solve_eq (a : May ν) {b : Nat} (hb : b < a.count) :
    a.solve.ins[b]? = some (a.inOf a.solve.ins b) ∧ a.solve.outs[b]? = some (a.outOf a.solve.ins b) := by
  have h := ascending_solve a
  have hupdate : a.update a.solve b = a.solve := by
    apply eq_of_foldl h (fun _ => mem_sweep_lt) (sweep_solve a)
    exact List.mem_reverse.mpr (List.mem_range.mpr hb)
  constructor
  · have hset := List.getElem?_set_self (a := a.inOf a.solve.ins b) (h.insLength.symm ▸ hb)
    rwa [show a.solve.ins.set b (a.inOf a.solve.ins b) = a.solve.ins from congrArg FlowSets.ins hupdate] at hset
  · have hset := List.getElem?_set_self (a := a.outOf a.solve.ins b) (h.outsLength.symm ▸ hb)
    rwa [show a.solve.outs.set b (a.outOf a.solve.ins b) = a.solve.outs from congrArg FlowSets.outs hupdate] at hset

/-! ## What the solution says -/

/-- From the start of the block the fact reaches a use before it is killed. -/
inductive Live (a : May ν) : Nat → ν → Prop
  | use {b : Nat} {v : ν} : b < a.count → v ∈ a.facts → v ∈ a.use b → Live a b v
  | flow {b t : Nat} {v : ν} : b < a.count → v ∉ a.kill b → t ∈ a.succs b → Live a t v → Live a b v

omit [DecidableEq ν] in
theorem Live.known {b : Nat} {v : ν} (h : Live a b v) : b < a.count ∧ v ∈ a.facts := by
  induction h with
  | use hb hv _ => exact ⟨hb, hv⟩
  | flow hb _ _ _ ih => exact ⟨hb, ih.2⟩

/-- The start of each block has only facts that reach a use. -/
def Within (a : May ν) (s : FlowSets ν) : Prop := ∀ b, ∀ v ∈ s.ins[b]?.getD [], Live a b v

theorem within_update (h : Within a s) {b : Nat} (hb : b < a.count) : Within a (a.update s b) := by
  intro c v hv
  rw [update] at hv
  by_cases hcb : b = c
  · subst hcb
    by_cases hlt : b < s.ins.length
    · rw [List.getElem?_set_self hlt, Option.getD_some, inOf, List.mem_filter, decide_eq_true_eq] at hv
      obtain ⟨hfact, huse | ⟨hout, hkill⟩⟩ := hv
      · exact .use hb hfact huse
      · rw [outOf, List.mem_filter, decide_eq_true_eq] at hout
        obtain ⟨-, t, ht, hin⟩ := hout
        exact .flow hb hkill ht (h t v hin)
    · rw [List.set_eq_of_length_le (Nat.le_of_not_lt hlt)] at hv
      exact h b v hv
  · rw [List.getElem?_set_ne hcb] at hv
    exact h c v hv

theorem within_foldl : ∀ {bs : List Nat} {s : FlowSets ν}, Within a s → (∀ b ∈ bs, b < a.count) →
    Within a (bs.foldl a.update s)
  | [], _, h, _ => h
  | b :: bs, s, h, hbs => by
      have hupdate := within_update h (hbs b List.mem_cons_self)
      show Within a (bs.foldl a.update (a.update s b))
      exact within_foldl hupdate fun c hc => hbs c (List.mem_cons_of_mem b hc)

theorem within_iterate : ∀ {k : Nat} {s : FlowSets ν}, Within a s → Within a (a.iterate k s)
  | 0, _, h => h
  | k + 1, s, h => by
      have hsweep : Within a (a.sweep s) := within_foldl h fun _ => mem_sweep_lt
      rw [iterate]
      by_cases hfix : a.sweep s = s
      · rw [if_pos hfix]
        exact hsweep
      · rw [if_neg hfix]
        exact within_iterate hsweep

theorem within_solve (a : May ν) : Within a a.solve := by
  apply within_iterate
  intro b v hv
  rw [start, List.getElem?_replicate] at hv
  split at hv <;> cases hv

/-- **A fact is at the start of a block if and only if it reaches a use from there.** -/
theorem mem_ins_iff (a : May ν) (b : Nat) (v : ν) : v ∈ a.solve.ins[b]?.getD [] ↔ Live a b v := by
  constructor
  · exact within_solve a b v
  · intro h
    induction h with
    | use hb hv huse =>
        rw [(solve_eq a hb).1, Option.getD_some, inOf, List.mem_filter, decide_eq_true_eq]
        exact ⟨hv, Or.inl huse⟩
    | flow hb hkill ht hlive ih =>
        rw [(solve_eq a hb).1, Option.getD_some, inOf, List.mem_filter, decide_eq_true_eq]
        refine ⟨hlive.known.2, Or.inr ⟨?_, hkill⟩⟩
        rw [outOf, List.mem_filter, decide_eq_true_eq]
        exact ⟨hlive.known.2, _, ht, ih⟩

/-- **A fact is at the end of a block if and only if it is at the start of a successor.** -/
theorem mem_outs_iff (a : May ν) (b : Nat) (v : ν) :
    v ∈ a.solve.outs[b]?.getD [] ↔ b < a.count ∧ ∃ t ∈ a.succs b, Live a t v := by
  constructor
  · intro h
    have hb : b < a.count := by
      by_contra hb
      rw [List.getElem?_eq_none ((ascending_solve a).outsLength.symm ▸ Nat.le_of_not_lt hb)] at h
      cases h
    rw [(solve_eq a hb).2, Option.getD_some, outOf, List.mem_filter, decide_eq_true_eq] at h
    obtain ⟨-, t, ht, hin⟩ := h
    exact ⟨hb, t, ht, (mem_ins_iff a t v).mp hin⟩
  · rintro ⟨hb, t, ht, hlive⟩
    rw [(solve_eq a hb).2, Option.getD_some, outOf, List.mem_filter, decide_eq_true_eq]
    exact ⟨hlive.known.2, t, ht, (mem_ins_iff a t v).mpr hlive⟩

end May

end Vnt.Lib
