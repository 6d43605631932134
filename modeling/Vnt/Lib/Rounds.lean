import Mathlib.Tactic.Linarith

/-!
# `Lib.Rounds` — a fixed number of rounds towards a fixpoint

A `step` says how much it changed, and a step that changed nothing returns its input. `rounds step k` makes at most `k`
steps and stops behind one that changed nothing. When every change makes a measure smaller, running the rounds once more on
their result changes nothing if and only if the input settles within `k` steps.
-/

namespace Vnt.Lib

variable {α : Type}

/-- At most `k` steps; a step that changes nothing is the last. -/
def rounds (step : α → α × Nat) : Nat → α → α
  | 0, x => x
  | k + 1, x => if (step x).2 = 0 then (step x).1 else rounds step k (step x).1

/-- One of the first `k` steps from `x`, or the next, changes nothing. -/
def Settles (step : α → α × Nat) (k : Nat) (x : α) : Prop := ∃ j ≤ k, (step ((fun y => (step y).1)^[j] x)).2 = 0

/-- What is asked of a step: no change means the same result, and changes shrink a measure. -/
structure Shrinking (step : α → α × Nat) (measure : α → Nat) : Prop where
  same : ∀ x, (step x).2 = 0 → (step x).1 = x
  shrinks : ∀ x, measure (step x).1 + (step x).2 ≤ measure x

variable {step : α → α × Nat} {measure : α → Nat} {k : Nat} {x : α}

theorem rounds_of_zero (h : Shrinking step measure) (hx : (step x).2 = 0) (k : Nat) : rounds step k x = x := by
  cases k with
  | zero => rfl
  | succ k => rw [rounds, if_pos hx, h.same x hx]

theorem rounds_succ (hx : (step x).2 ≠ 0) (k : Nat) : rounds step (k + 1) x = rounds step k (step x).1 := by
  rw [rounds, if_neg hx]

/-- Rounds only shrink. -/
theorem rounds_measure_le (h : Shrinking step measure) : ∀ (k : Nat) (x : α), measure (rounds step k x) ≤ measure x
  | 0, _ => Nat.le_refl _
  | k + 1, x => by
      by_cases hx : (step x).2 = 0
      · rw [rounds_of_zero h hx]
      · rw [rounds_succ hx]
        have hstep := h.shrinks x
        have hmore := rounds_measure_le h k (step x).1
        omega

theorem rounds_measure_lt (h : Shrinking step measure) (hx : (step x).2 ≠ 0) :
    measure (rounds step (k + 1) x) < measure x := by
  rw [rounds_succ hx]
  have hstep := h.shrinks x
  have hmore := rounds_measure_le h k (step x).1
  omega

/-- **The rounds settle what settles within their number**, and nothing else. -/
theorem settles_iff (h : Shrinking step measure) : ∀ (k : Nat) (x : α),
    Settles step k x ↔ (step (rounds step k x)).2 = 0
  | 0, x => by
      constructor
      · rintro ⟨j, hj, hzero⟩
        rw [Nat.le_zero.mp hj] at hzero
        exact hzero
      · exact fun hx => ⟨0, Nat.le_refl 0, hx⟩
  | k + 1, x => by
      by_cases hx : (step x).2 = 0
      · rw [rounds_of_zero h hx]
        exact ⟨fun _ => hx, fun _ => ⟨0, Nat.zero_le _, hx⟩⟩
      rw [rounds_succ hx, ← settles_iff h k (step x).1]
      constructor
      · rintro ⟨j, hj, hzero⟩
        cases j with
        | zero => exact absurd hzero hx
        | succ j => exact ⟨j, Nat.le_of_succ_le_succ hj, hzero⟩
      · rintro ⟨j, hj, hzero⟩
        exact ⟨j + 1, Nat.succ_le_succ hj, hzero⟩

end Vnt.Lib
