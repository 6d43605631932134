import Mathlib.Data.List.Basic

/-!
# `Lib.Units` — texts cut into units

A rule says how long the unit at the front of a text is. It may look further than the unit itself, as long as a cut behind
the unit does not change what it says (`stable`); then a text cut between two units has the units of its parts.
-/

namespace Vnt.Lib

/-- How long the first unit of a text is. -/
structure UnitRule (α : Type) where
  size : List α → Nat
  pos : ∀ {l}, l ≠ [] → 0 < size l
  le : ∀ l, size l ≤ l.length
  stable : ∀ {l m}, l ≠ [] → size l ≤ m → size (l.take m) = size l

namespace UnitRule

variable {α : Type} (U : UnitRule α) {l : List α}

def units (l : List α) : List (List α) :=
  if _h : l = [] then [] else l.take (U.size l) :: units (l.drop (U.size l))
termination_by l.length
decreasing_by
  rw [List.length_drop]
  exact Nat.sub_lt (List.length_pos_iff.mpr _h) (U.pos _h)

@[simp] theorem units_nil : U.units [] = [] := by
  rw [units, dif_pos rfl]

theorem units_of_ne (h : l ≠ []) : U.units l = l.take (U.size l) :: U.units (l.drop (U.size l)) := by
  rw [units, dif_neg h]

/-- Induction along the units of a text. -/
theorem induct {motive : List α → Prop} (nil : motive [])
    (step : ∀ l, l ≠ [] → motive (l.drop (U.size l)) → motive l) (l : List α) : motive l := by
  induction hn : l.length using Nat.strongRecOn generalizing l with
  | ind n ih =>
      by_cases h : l = []
      · rw [h]
        exact nil
      · apply step l h
        apply ih (l.drop (U.size l)).length _ _ rfl
        rw [List.length_drop, ← hn]
        exact Nat.sub_lt (List.length_pos_iff.mpr h) (U.pos h)

theorem units_flatten (l : List α) : (U.units l).flatten = l := by
  induction l using U.induct with
  | nil => rw [units_nil, List.flatten_nil]
  | step l h ih => rw [U.units_of_ne h, List.flatten_cons, ih, List.take_append_drop]

theorem units_length_le (l : List α) : (U.units l).length ≤ l.length := by
  induction l using U.induct with
  | nil =>
      rw [units_nil]
      exact Nat.le_refl _
  | step l h ih =>
      have hpos := U.pos h
      have hle := U.le l
      rw [List.length_drop] at ih
      rw [U.units_of_ne h, List.length_cons]
      omega

/-- Where `k` units end. -/
def span (k : Nat) (l : List α) : Nat := ((U.units l).take k).flatten.length

@[simp] theorem span_zero (l : List α) : U.span 0 l = 0 := rfl

@[simp] theorem span_nil (k : Nat) : U.span k ([] : List α) = 0 := by
  rw [span, units_nil, List.take_nil]
  rfl

theorem span_succ (h : l ≠ []) (k : Nat) : U.span (k + 1) l = U.size l + U.span k (l.drop (U.size l)) := by
  rw [span, U.units_of_ne h, List.take_succ_cons, List.flatten_cons, List.length_append,
    List.length_take_of_le (U.le l)]
  rfl

theorem span_le (k : Nat) (l : List α) : U.span k l ≤ l.length := by
  have hflat := congrArg List.length (U.units_flatten l)
  rw [← List.take_append_drop k (U.units l), List.flatten_append, List.length_append] at hflat
  unfold span
  omega

theorem take_span (k : Nat) (l : List α) : l.take (U.span k l) = ((U.units l).take k).flatten := by
  have hsplit : l = ((U.units l).take k).flatten ++ ((U.units l).drop k).flatten := by
    rw [← List.flatten_append, List.take_append_drop, U.units_flatten]
  have htake := @List.take_left _ ((U.units l).take k).flatten ((U.units l).drop k).flatten
  rw [← hsplit] at htake
  exact htake

theorem units_drop_span (k : Nat) : ∀ l : List α, U.units (l.drop (U.span k l)) = (U.units l).drop k := by
  induction k with
  | zero => exact fun l => rfl
  | succ k ih =>
      intro l
      by_cases h : l = []
      · rw [h, span_nil, List.drop_zero, units_nil, List.drop_nil]
      · rw [U.span_succ h, ← List.drop_drop, ih, U.units_of_ne h, List.drop_succ_cons]

/-- What the rule says of the front of a text does not change when the text ends between two units. -/
theorem units_take_span (k : Nat) : ∀ l : List α, U.units (l.take (U.span k l)) = (U.units l).take k := by
  induction k with
  | zero =>
      intro l
      rw [span_zero, List.take_zero, units_nil, List.take_zero]
  | succ k ih =>
      intro l
      by_cases h : l = []
      · rw [h, List.take_nil, units_nil, List.take_nil]
      · have hpos := U.pos h
        have hle := U.le l
        have hspan := U.span_succ h k
        have hstable := U.stable h (Nat.le_of_lt_succ (by omega) : U.size l ≤ U.span (k + 1) l)
        have hne : l.take (U.span (k + 1) l) ≠ [] := by
          intro hnil
          have hlen := congrArg List.length hnil
          rw [List.length_take, List.length_nil] at hlen
          omega
        have hdrop : (l.take (U.span (k + 1) l)).drop (U.size l) =
            (l.drop (U.size l)).take (U.span k (l.drop (U.size l))) := by
          rw [hspan, List.drop_take, Nat.add_sub_cancel_left]
        have hfront : (l.take (U.span (k + 1) l)).take (U.size l) = l.take (U.size l) := by
          rw [List.take_take, Nat.min_eq_left (by omega)]
        rw [U.units_of_ne hne, hstable, hdrop, ih, hfront, U.units_of_ne h, List.take_succ_cons]

/-- Pieces that the rule cuts off one after another are the units. -/
theorem units_flatten_of (pieces : List (List α)) (hpieces : ∀ p ∈ pieces, p ≠ [] ∧ ∀ rest, U.size (p ++ rest) = p.length) :
    U.units pieces.flatten = pieces := by
  induction pieces with
  | nil => exact U.units_nil
  | cons p pieces ih =>
      obtain ⟨hne, hsize⟩ := hpieces p List.mem_cons_self
      have hall : p ++ pieces.flatten ≠ [] := List.append_ne_nil_of_left_ne_nil hne _
      rw [List.flatten_cons, U.units_of_ne hall, hsize, List.take_left, List.drop_left,
        ih fun q hq => hpieces q (List.mem_cons_of_mem p hq)]

end UnitRule

end Vnt.Lib
