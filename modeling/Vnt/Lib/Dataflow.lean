import Mathlib.Algebra.GroupWithZero.Nat
import Mathlib.Algebra.BigOperators.Group.List.Basic

/-!
# `Lib.Dataflow` — must-analysis by round-robin iteration

`n` blocks, each with the facts it generates; a block's facts on entry are given for the blocks with a
`seed`, and elsewhere are those that every predecessor has on exit. The solver starts from all facts
everywhere and recomputes the blocks in order, in place, until a whole sweep changes nothing.

Facts are lists over one `facts`, kept in its order, so that `⊆`, `<+` and length comparisons agree. A sweep
only ever removes facts; so the number of facts bounds the number of sweeps (`sweep_solve`), and what the
solver ends with satisfies the equation of every block (`solve_spec`) and is the largest such valuation
(`within_solve`).
-/

namespace Vnt.Lib

open scoped List

/-! ## Fewer facts -/

variable {ν : Type}

/-- `ins'` has fewer facts, block by block. -/
def Below (ins' ins : List (List ν)) : Prop := List.Forall₂ (· <+ ·) ins' ins

theorem Below.refl (ins : List (List ν)) : Below ins ins := by
  induction ins with
  | nil => exact .nil
  | cons l ins ih => exact .cons (List.Sublist.refl l) ih

theorem Below.trans {x y z : List (List ν)} (h : Below x y) (h' : Below y z) : Below x z := by
  induction h generalizing z with
  | nil => exact h'
  | cons hl _ ih =>
      cases h' with
      | cons hl' h' => exact .cons (hl.trans hl') (ih h')

theorem Below.antisymm {x y : List (List ν)} (h : Below x y) (h' : Below y x) : x = y := by
  induction h with
  | nil => rfl
  | cons hl _ ih =>
      cases h' with
      | cons hl' h' => rw [hl.antisymm hl', ih h']

/-- The facts that are left. -/
def weight (ins : List (List ν)) : Nat := (ins.map List.length).sum

theorem Below.weight_le {x y : List (List ν)} (h : Below x y) : weight x ≤ weight y := by
  induction h with
  | nil => exact Nat.le_refl _
  | cons hl _ ih =>
      have := hl.length_le
      simp only [weight, List.map_cons, List.sum_cons] at *
      omega

theorem Below.eq_of_weight {x y : List (List ν)} (h : Below x y) : weight x = weight y → x = y := by
  induction h with
  | nil => intro _; rfl
  | @cons l l' x y hl hxy ih =>
      intro hw
      have hlen := hl.length_le
      have hle := Below.weight_le hxy
      simp only [weight, List.map_cons, List.sum_cons] at *
      rw [hl.eq_of_length (by omega), ih (by omega)]

theorem Below.getElem? {x y : List (List ν)} (h : Below x y) (b : Nat) :
    (x[b]? = none ∧ y[b]? = none) ∨ ∃ l l', x[b]? = some l ∧ y[b]? = some l' ∧ l <+ l' := by
  induction h generalizing b with
  | nil => exact .inl ⟨rfl, rfl⟩
  | cons hl _ ih =>
      cases b with
      | zero => exact .inr ⟨_, _, rfl, rfl, hl⟩
      | succ b => exact ih b

theorem below_set {ins : List (List ν)} {b : Nat} {l l' : List ν} (hb : ins[b]? = some l) (hl : l' <+ l) :
    Below (ins.set b l') ins := by
  induction ins generalizing b with
  | nil => cases hb
  | cons k ins ih =>
      cases b with
      | zero =>
          cases hb
          exact .cons hl (Below.refl ins)
      | succ b => exact .cons (List.Sublist.refl k) (ih hb)

theorem weight_replicate (n : Nat) (l : List ν) : weight (List.replicate n l) = n * l.length := by
  simp [weight]

/-! ## The solver -/

variable [DecidableEq ν]

/-- An instance of the analysis. -/
structure Must (ν : Type) where
  count : Nat
  facts : List ν
  seed : Nat → Option (List ν)
  preds : Nat → List Nat
  gen : Nat → List ν

namespace Must

variable (a : Must ν)

/-- The facts at the end of `p`. -/
def out (ins : List (List ν)) (p : Nat) : List ν := ins[p]?.getD [] ++ a.gen p

/-- The facts at the start of `b`, computed from the current ones. -/
def meet (ins : List (List ν)) (b : Nat) : List ν :=
  match a.seed b with
  | some s => a.facts.filter (· ∈ s)
  | none => a.facts.filter fun v => a.preds b ≠ [] ∧ ∀ p ∈ a.preds b, v ∈ a.out ins p

/-- Recompute one block. -/
def update (ins : List (List ν)) (b : Nat) : List (List ν) := ins.set b (a.meet ins b)

/-- Recompute every block, in order. -/
def sweep (ins : List (List ν)) : List (List ν) := (List.range a.count).foldl a.update ins

/-- Sweep until nothing changes, at most `fuel` times. -/
def iterate : Nat → List (List ν) → List (List ν)
  | 0, ins => ins
  | k + 1, ins => if a.sweep ins = ins then ins else iterate k (a.sweep ins)

/-- The solution: from all facts everywhere. -/
def solve : List (List ν) :=
  a.iterate (a.count * a.facts.length + 1) (List.replicate a.count a.facts)

/-! ## Descent -/

/-- No block wants more facts than it has. -/
def Descending (ins : List (List ν)) : Prop := ∀ b l, ins[b]? = some l → a.meet ins b <+ l

variable {a}

omit [DecidableEq ν] in
theorem mem_out_mono {x y : List (List ν)} (h : Below x y) {p : Nat} {v : ν} (hv : v ∈ a.out x p) :
    v ∈ a.out y p := by
  unfold out at *
  rw [List.mem_append] at *
  refine hv.imp_left fun hv => ?_
  rcases h.getElem? p with ⟨hx, -⟩ | ⟨l, l', hx, hy, hl⟩
  · simp [hx] at hv
  · rw [hx] at hv
    rw [hy]
    exact hl.subset hv

/-- Fewer facts before, fewer facts after. -/
theorem meet_mono {x y : List (List ν)} (h : Below x y) (b : Nat) : a.meet x b <+ a.meet y b := by
  unfold meet
  cases a.seed b with
  | some s => exact List.Sublist.refl _
  | none =>
      refine List.monotone_filter_right _ fun v hv => ?_
      simp only [decide_eq_true_eq] at hv ⊢
      exact ⟨hv.1, fun p hp => mem_out_mono h (hv.2 p hp)⟩

theorem update_spec {ins : List (List ν)} (h : a.Descending ins) (b : Nat) :
    Below (a.update ins b) ins ∧ a.Descending (a.update ins b) := by
  by_cases hb : b < ins.length
  · have hget := List.getElem?_eq_getElem hb
    have hbelow : Below (a.update ins b) ins := below_set hget (h b _ hget)
    refine ⟨hbelow, fun c l hc => ?_⟩
    have hm := meet_mono (a := a) hbelow c
    unfold update at hc
    by_cases hcb : b = c
    · subst hcb
      rw [List.getElem?_set_self hb] at hc
      cases hc
      exact hm
    · rw [List.getElem?_set_ne hcb] at hc
      exact hm.trans (h c l hc)
  · unfold update
    rw [List.set_eq_of_length_le (by omega)]
    exact ⟨Below.refl ins, h⟩

theorem foldl_update_spec (bs : List Nat) : ∀ {ins : List (List ν)}, a.Descending ins →
    Below (bs.foldl a.update ins) ins ∧ a.Descending (bs.foldl a.update ins) := by
  induction bs with
  | nil => intro ins h; exact ⟨Below.refl ins, h⟩
  | cons b bs ih =>
      intro ins h
      obtain ⟨hbelow, hd⟩ := update_spec h b
      obtain ⟨hbelow', hd'⟩ := ih hd
      exact ⟨hbelow'.trans hbelow, hd'⟩

theorem sweep_spec {ins : List (List ν)} (h : a.Descending ins) :
    Below (a.sweep ins) ins ∧ a.Descending (a.sweep ins) := foldl_update_spec _ h

/-! ## The fixpoint -/

/-- Enough sweeps reach a fixpoint. -/
theorem iterate_spec (k : Nat) : ∀ {ins : List (List ν)}, a.Descending ins → weight ins < k →
    a.sweep (a.iterate k ins) = a.iterate k ins ∧ a.Descending (a.iterate k ins) ∧
      (a.iterate k ins).length = ins.length := by
  induction k with
  | zero => intro ins _ hk; omega
  | succ k ih =>
      intro ins h hk
      obtain ⟨hbelow, hd⟩ := sweep_spec h
      unfold iterate
      split
      · rename_i hfix
        exact ⟨hfix, h, rfl⟩
      · rename_i hne
        have hlt : weight (a.sweep ins) < weight ins := by
          have hle := hbelow.weight_le
          rcases Nat.lt_or_eq_of_le hle with hlt | heq
          · exact hlt
          · exact absurd (hbelow.eq_of_weight heq) hne
        obtain ⟨hfix, hd', hlen⟩ := ih hd (by omega)
        exact ⟨hfix, hd', hlen.trans hbelow.length_eq⟩

/-- At a fixpoint of the sweep every block satisfies its equation. -/
theorem meet_eq_of_sweep (bs : List Nat) : ∀ {ins : List (List ν)}, a.Descending ins →
    bs.foldl a.update ins = ins → ∀ b ∈ bs, ∀ l, ins[b]? = some l → a.meet ins b = l := by
  induction bs with
  | nil => intro ins _ _ b hb; cases hb
  | cons c bs ih =>
      intro ins h hfix b hb l hl
      rw [List.foldl_cons] at hfix
      obtain ⟨hbelow, hd⟩ := update_spec h c
      have hbelow' := (foldl_update_spec bs hd).1
      rw [hfix] at hbelow'
      -- The rest of the sweep cannot give back what this block lost.
      have heq : a.update ins c = ins := hbelow.antisymm hbelow'
      rw [heq] at hfix hd
      rcases List.mem_cons.mp hb with rfl | hb
      · unfold update at heq
        have hlt : b < ins.length := (List.getElem?_eq_some_iff.mp hl).1
        have hset := List.getElem?_set_self (a := a.meet ins b) hlt
        rw [heq, hl] at hset
        exact (Option.some.inj hset).symm
      · exact ih hd hfix b hb l hl

/-- From all facts everywhere the sweeps only go down, and there is fuel for all of them. -/
theorem descending_start (a : Must ν) : a.Descending (List.replicate a.count a.facts) ∧
    weight (List.replicate a.count a.facts) < a.count * a.facts.length + 1 := by
  refine ⟨fun b l hl => ?_, ?_⟩
  · rw [List.getElem?_replicate] at hl
    split at hl
    · cases hl
      unfold meet
      cases a.seed b <;> exact List.filter_sublist
    · cases hl
  · rw [weight_replicate]
    omega

/-- **The solution satisfies the equation of every block.** -/
theorem solve_spec (a : Must ν) : a.solve.length = a.count ∧
    ∀ b < a.count, ∀ l, a.solve[b]? = some l → l = a.meet a.solve b := by
  obtain ⟨hstart, hweight⟩ := descending_start a
  obtain ⟨hfix, hd, hlen⟩ := iterate_spec _ hstart hweight
  refine ⟨hlen.trans List.length_replicate, fun b hb l hl => ?_⟩
  exact (meet_eq_of_sweep (List.range a.count) hd hfix b (List.mem_range.mpr hb) l hl).symm

/-- The loop ends: one more sweep changes nothing. -/
theorem sweep_solve (a : Must ν) : a.sweep a.solve = a.solve := by
  obtain ⟨hstart, hweight⟩ := descending_start a
  exact (iterate_spec _ hstart hweight).1

/-! ## The largest solution -/

/-- What `S` claims of a block it has on entry. -/
def Within (S : Nat → ν → Prop) (ins : List (List ν)) : Prop :=
  ∀ b l, ins[b]? = some l → ∀ v, S b v → v ∈ l

/-- A valuation that asks of every block no more than its equation gives. -/
structure Consistent (a : Must ν) (S : Nat → ν → Prop) : Prop where
  known : ∀ b v, S b v → v ∈ a.facts
  seeded : ∀ b < a.count, ∀ s, a.seed b = some s → ∀ v, S b v → v ∈ s
  flows : ∀ b < a.count, a.seed b = none → ∀ v, S b v →
    a.preds b ≠ [] ∧ ∀ p ∈ a.preds b, p < a.count ∧ (S p v ∨ v ∈ a.gen p)

theorem within_update {S : Nat → ν → Prop} (hS : a.Consistent S) {ins : List (List ν)}
    (hlen : ins.length = a.count) (h : Within S ins) (b : Nat) : Within S (a.update ins b) := by
  intro c l hc v hv
  unfold update at hc
  by_cases hcb : b = c
  · subst hcb
    have hlt : b < ins.length := by
      have := (List.getElem?_eq_some_iff.mp hc).1
      rwa [List.length_set] at this
    rw [List.getElem?_set_self hlt] at hc
    cases hc
    unfold meet
    cases hseed : a.seed b with
    | some s =>
        rw [List.mem_filter, decide_eq_true_eq]
        exact ⟨hS.known b v hv, hS.seeded b (hlen ▸ hlt) s hseed v hv⟩
    | none =>
        obtain ⟨hne, hpreds⟩ := hS.flows b (hlen ▸ hlt) hseed v hv
        rw [List.mem_filter, decide_eq_true_eq]
        refine ⟨hS.known b v hv, hne, fun p hp => ?_⟩
        obtain ⟨hplt, hSp⟩ := hpreds p hp
        have hget := List.getElem?_eq_getElem (hlen.symm ▸ hplt)
        rw [out, hget, Option.getD_some, List.mem_append]
        exact hSp.imp_left fun hSp => h p _ hget v hSp
  · rw [List.getElem?_set_ne hcb] at hc
    exact h c l hc v hv

theorem within_foldl {S : Nat → ν → Prop} (hS : a.Consistent S) (bs : List Nat) : ∀ {ins : List (List ν)},
    ins.length = a.count → Within S ins → Within S (bs.foldl a.update ins) ∧
      (bs.foldl a.update ins).length = a.count := by
  induction bs with
  | nil => intro ins hlen h; exact ⟨h, hlen⟩
  | cons b bs ih =>
      intro ins hlen h
      refine ih ?_ (within_update hS hlen h b)
      unfold update
      rw [List.length_set, hlen]

theorem within_iterate {S : Nat → ν → Prop} (hS : a.Consistent S) (k : Nat) : ∀ {ins : List (List ν)},
    ins.length = a.count → Within S ins → Within S (a.iterate k ins) := by
  induction k with
  | zero => intro ins _ h; exact h
  | succ k ih =>
      intro ins hlen h
      unfold iterate
      split
      · exact h
      · obtain ⟨h', hlen'⟩ := within_foldl hS (List.range a.count) hlen h
        exact ih hlen' h'

/-- **Every consistent valuation is within the solution.** -/
theorem within_solve {S : Nat → ν → Prop} (hS : a.Consistent S) : Within S a.solve := by
  refine within_iterate hS _ List.length_replicate fun b l hl v hv => ?_
  rw [List.getElem?_replicate] at hl
  split at hl
  · cases hl
    exact hS.known b v hv
  · cases hl

end Must

end Vnt.Lib
