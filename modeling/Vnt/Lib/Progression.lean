import Mathlib.Data.List.Basic
import Mathlib.Tactic.Ring

/-!
# `Lib.Progression` — arithmetic progressions up to a bound

The terms `start`, `start + step`, … that lie before `stop`: below it when the step is positive, above it when it is
negative. `count` says how many there are, and counting them down is the induction over a loop that runs through them.
-/

namespace Vnt.Lib.Progression

variable {start stop step : Int}

/-- `x` has not reached `stop`. -/
def Before (stop step x : Int) : Prop := if 0 < step then x < stop else stop < x

instance (stop step x : Int) : Decidable (Before stop step x) := by
  unfold Before
  infer_instance

/-- The number of terms before `stop`. -/
def count (start stop step : Int) : Nat :=
  if 0 < step then ((stop - start + step - 1) / step).toNat else ((start - stop - step - 1) / -step).toNat

/-- The first `n` terms. -/
def terms (start step : Int) (n : Nat) : List Int := (List.range n).map fun k : Nat => start + k * step

@[simp] theorem terms_zero : terms start step 0 = [] := rfl

theorem terms_succ (n : Nat) : terms start step (n + 1) = start :: terms (start + step) step n := by
  unfold terms
  rw [List.range_succ_eq_map, List.map_cons, List.map_map]
  congr 1
  · rw [Nat.cast_zero, zero_mul, add_zero]
  · apply List.map_congr_left
    intro k _
    show start + ((k + 1 : Nat) : Int) * step = start + step + k * step
    push_cast
    ring

/-- Exactly the first `count` terms come before `stop`. -/
theorem before_iff (hstep : step ≠ 0) (k : Nat) : Before stop step (start + k * step) ↔ k < count start stop step := by
  unfold Before count
  by_cases hpos : 0 < step
  · rw [if_pos hpos, if_pos hpos, Int.lt_toNat, Int.lt_iff_add_one_le, Int.lt_iff_add_one_le, Int.le_ediv_iff_mul_le hpos,
      add_mul, one_mul]
    omega
  · have hneg : 0 < -step := by omega
    rw [if_neg hpos, if_neg hpos, Int.lt_toNat, Int.lt_iff_add_one_le, Int.lt_iff_add_one_le, Int.le_ediv_iff_mul_le hneg,
      add_mul, one_mul, mul_neg]
    omega

theorem count_eq_zero (hstep : step ≠ 0) (h : ¬ Before stop step start) : count start stop step = 0 := by
  have hiff := @before_iff start stop step hstep 0
  rw [Nat.cast_zero, zero_mul, add_zero] at hiff
  exact Nat.eq_zero_of_not_pos fun hpos => h (hiff.mpr hpos)

theorem count_succ (hstep : step ≠ 0) (h : Before stop step start) :
    count start stop step = count (start + step) stop step + 1 := by
  have hfirst := @before_iff start stop step hstep 0
  rw [Nat.cast_zero, zero_mul, add_zero] at hfirst
  have hshift : ∀ k : Nat, k + 1 < count start stop step ↔ k < count (start + step) stop step := by
    intro k
    rw [← before_iff hstep, ← before_iff hstep]
    have hterm : start + ((k + 1 : Nat) : Int) * step = start + step + k * step := by
      push_cast
      ring
    rw [hterm]
  have hpos := hfirst.mp h
  have hlast := hshift (count start stop step - 1)
  have hnext := hshift (count (start + step) stop step)
  omega

end Vnt.Lib.Progression
