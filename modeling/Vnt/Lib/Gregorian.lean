import Mathlib.Logic.Function.Iterate
import Mathlib.Tactic.SplitIfs

/-!
# `Lib.Gregorian` — the proleptic Gregorian calendar

Years from 1 on, without end. A date is valid by construction, `Date.next` is the date after it, and `Date.number` counts the
days from 1 January of year 1 on, which is day 1 and a Monday: day 0 would be a Sunday.
-/

namespace Vnt.Lib.Gregorian

/-- A leap year. -/
def IsLeap (y : ℕ) : Prop := y % 400 = 0 ∨ y % 100 ≠ 0 ∧ y % 4 = 0

instance (y : ℕ) : Decidable (IsLeap y) := inferInstanceAs (Decidable (_ ∨ _))

def yearDays (y : ℕ) : ℕ := if IsLeap y then 366 else 365

/-- The days of a month; there are twelve months. -/
def monthDays (y m : ℕ) : ℕ :=
  if m = 2 then if IsLeap y then 29 else 28
  else if m = 4 ∨ m = 6 ∨ m = 9 ∨ m = 11 then 30
  else if 1 ≤ m ∧ m ≤ 12 then 31
  else 0

structure Date where
  year : ℕ
  month : ℕ
  day : ℕ
  year_pos : 1 ≤ year
  day_pos : 1 ≤ day
  day_le : day ≤ monthDays year month
  deriving DecidableEq

variable {y m n : ℕ} {t : Date}

/-! ## Months and years -/

theorem month_bounds (h : 1 ≤ monthDays y m) : 1 ≤ m ∧ m ≤ 12 := by
  unfold monthDays at h
  split_ifs at h <;> omega

theorem monthDays_pos (hlow : 1 ≤ m) (hhigh : m ≤ 12) : 1 ≤ monthDays y m := by
  unfold monthDays
  split_ifs <;> omega

/-- The days of the months in front of `m`. -/
def daysBeforeMonth (y : ℕ) : ℕ → ℕ
  | 0 => 0
  | m + 1 => daysBeforeMonth y m + monthDays y m

/-- The days of the years 1 to `n`. -/
def daysOfYears : ℕ → ℕ
  | 0 => 0
  | n + 1 => daysOfYears n + yearDays (n + 1)

theorem daysOfYears_eq (n : ℕ) : daysOfYears n + n / 100 = 365 * n + n / 4 + n / 400 := by
  induction n with
  | zero => rfl
  | succ n ih =>
      unfold daysOfYears yearDays
      by_cases h : IsLeap (n + 1)
      · rw [if_pos h]
        unfold IsLeap at h
        omega
      · rw [if_neg h]
        unfold IsLeap at h
        omega

/-- The months one after another. -/
theorem daysBeforeMonth_table (y : ℕ) (hlow : 1 ≤ m) (hhigh : m ≤ 13) :
    daysBeforeMonth y m = [0, 31, 59, 90, 120, 151, 181, 212, 243, 273, 304, 334, 365].getD (m - 1) 0 +
      if 3 ≤ m ∧ IsLeap y then 1 else 0 := by
  have hcases : m = 1 ∨ m = 2 ∨ m = 3 ∨ m = 4 ∨ m = 5 ∨ m = 6 ∨ m = 7 ∨ m = 8 ∨ m = 9 ∨ m = 10 ∨ m = 11 ∨ m = 12 ∨ m = 13 := by
    omega
  by_cases h : IsLeap y
  · rcases hcases with rfl | rfl | rfl | rfl | rfl | rfl | rfl | rfl | rfl | rfl | rfl | rfl | rfl <;>
      simp [daysBeforeMonth, monthDays, h]
  · rcases hcases with rfl | rfl | rfl | rfl | rfl | rfl | rfl | rfl | rfl | rfl | rfl | rfl | rfl <;>
      simp [daysBeforeMonth, monthDays, h]

/-- The twelve months make a year. -/
theorem daysBeforeMonth_year (y : ℕ) : daysBeforeMonth y 13 = yearDays y := by
  rw [daysBeforeMonth_table y (by decide) (by decide), yearDays]
  by_cases h : IsLeap y
  · rw [if_pos ⟨by decide, h⟩, if_pos h]
    rfl
  · rw [if_neg (fun hboth => h hboth.2), if_neg h]
    rfl

/-! ## Dates in order -/

namespace Date

theorem month_pos (t : Date) : 1 ≤ t.month := (month_bounds (Nat.le_trans t.day_pos t.day_le)).1

theorem month_le (t : Date) : t.month ≤ 12 := (month_bounds (Nat.le_trans t.day_pos t.day_le)).2

/-- 1 January of year 1. -/
def first : Date := ⟨1, 1, 1, by decide, by decide, by decide⟩

/-- 1 January of the same year. -/
def newYear (t : Date) : Date := ⟨t.year, 1, 1, t.year_pos, by decide, monthDays_pos (by decide) (by decide)⟩

def next (t : Date) : Date :=
  if hday : t.day < monthDays t.year t.month then
    ⟨t.year, t.month, t.day + 1, t.year_pos, Nat.le_add_left 1 _, hday⟩
  else if hmonth : t.month < 12 then
    ⟨t.year, t.month + 1, 1, t.year_pos, Nat.le_refl 1, monthDays_pos (Nat.le_add_left 1 _) hmonth⟩
  else ⟨t.year + 1, 1, 1, Nat.le_add_left 1 _, Nat.le_refl 1, monthDays_pos (by decide) (by decide)⟩

/-- The number of the day. -/
def number (t : Date) : ℕ := daysOfYears (t.year - 1) + daysBeforeMonth t.year t.month + t.day

theorem number_pos (t : Date) : 1 ≤ t.number := Nat.le_trans t.day_pos (Nat.le_add_left _ _)

theorem year_le_next (t : Date) : t.year ≤ t.next.year := by
  unfold next
  split_ifs
  · exact Nat.le_refl _
  · exact Nat.le_refl _
  · exact Nat.le_succ _

theorem number_first : first.number = 1 := rfl

/-- Across the ends of months and years the next day has the next number. -/
theorem number_next (t : Date) : t.next.number = t.number + 1 := by
  have hyear := t.year_pos
  have hmonth := t.month_le
  unfold next
  by_cases hday : t.day < monthDays t.year t.month
  · rw [dif_pos hday]
    exact (Nat.add_assoc _ _ _).symm
  · have hlast : t.day = monthDays t.year t.month := Nat.le_antisymm t.day_le (Nat.le_of_not_lt hday)
    rw [dif_neg hday]
    by_cases htwelve : t.month < 12
    · rw [dif_pos htwelve]
      unfold number
      rw [hlast]
      show daysOfYears (t.year - 1) + (daysBeforeMonth t.year t.month + monthDays t.year t.month) + 1 = _
      omega
    · have hdecember : t.month = 12 := by omega
      have hwhole : daysBeforeMonth t.year 12 + monthDays t.year 12 = yearDays t.year := daysBeforeMonth_year t.year
      obtain ⟨n, hn⟩ : ∃ n, t.year = n + 1 := ⟨t.year - 1, by omega⟩
      have hbefore : daysOfYears t.year = daysOfYears (t.year - 1) + yearDays t.year := by
        rw [hn]
        rfl
      rw [dif_neg htwelve]
      unfold number
      rw [hlast, hdecember]
      show daysOfYears t.year + 0 + 1 = _
      omega

theorem number_iterate (t : Date) (n : ℕ) : (next^[n] t).number = t.number + n := by
  induction n with
  | zero => rfl
  | succ n ih =>
      rw [Function.iterate_succ_apply', number_next, ih]
      omega

/-! ## Every date is reached -/

theorem reach_day (t : Date) (hday : t.day + n ≤ monthDays t.year t.month) :
    next^[n] t = ⟨t.year, t.month, t.day + n, t.year_pos, Nat.le_add_right_of_le t.day_pos, hday⟩ := by
  induction n with
  | zero => rfl
  | succ n ih =>
      have hbefore : t.day + n < monthDays t.year t.month := hday
      rw [Function.iterate_succ_apply', ih (Nat.le_of_lt hbefore), next, dif_pos hbefore]
      rfl

/-- From the first day of a month to the first day of the next. -/
theorem reach_month {hy : 1 ≤ y} (hlow : 1 ≤ m) (hhigh : m < 12) :
    ∃ n, next^[n] ⟨y, m, 1, hy, Nat.le_refl 1, monthDays_pos hlow (Nat.le_of_lt hhigh)⟩ =
      ⟨y, m + 1, 1, hy, Nat.le_refl 1, monthDays_pos (Nat.le_add_left 1 m) hhigh⟩ := by
  have hpos := @monthDays_pos y m hlow (Nat.le_of_lt hhigh)
  have hlast := @reach_day (monthDays y m - 1)
    ⟨y, m, 1, hy, Nat.le_refl 1, monthDays_pos hlow (Nat.le_of_lt hhigh)⟩ (by show 1 + (monthDays y m - 1) ≤ monthDays y m; omega)
  refine ⟨monthDays y m - 1 + 1, ?_⟩
  rw [Function.iterate_succ_apply', hlast, next, dif_neg (by show ¬1 + (monthDays y m - 1) < monthDays y m; omega),
    dif_pos hhigh]

/-- From new year to the first day of a month. -/
theorem reach_first {hy : 1 ≤ y} (m : ℕ) : ∀ (hlow : 1 ≤ m) (hhigh : m ≤ 12),
    ∃ n, next^[n] ⟨y, 1, 1, hy, Nat.le_refl 1, monthDays_pos (by decide) (by decide)⟩ =
      ⟨y, m, 1, hy, Nat.le_refl 1, monthDays_pos hlow hhigh⟩ := by
  induction m with
  | zero =>
      intro hlow
      exact absurd hlow (by decide)
  | succ m ih =>
      intro hlow hhigh
      by_cases hfirst : m = 0
      · subst hfirst
        exact ⟨0, rfl⟩
      · have hm : 1 ≤ m := Nat.one_le_iff_ne_zero.mpr hfirst
        obtain ⟨a, ha⟩ := ih hm (Nat.le_of_lt hhigh)
        obtain ⟨b, hb⟩ := @reach_month y m hy hm hhigh
        refine ⟨b + a, ?_⟩
        rw [Function.iterate_add_apply, ha, hb]

/-- From a new year to the next. -/
theorem reach_year {hy : 1 ≤ y} :
    ∃ n, next^[n] ⟨y, 1, 1, hy, Nat.le_refl 1, monthDays_pos (by decide) (by decide)⟩ =
      ⟨y + 1, 1, 1, Nat.le_add_left 1 y, Nat.le_refl 1, monthDays_pos (by decide) (by decide)⟩ := by
  obtain ⟨a, ha⟩ := @reach_first y hy 12 (by decide) (by decide)
  have hlast := @reach_day 30 ⟨y, 12, 1, hy, Nat.le_refl 1, monthDays_pos (by decide) (by decide)⟩ (Nat.le_refl 31)
  refine ⟨1 + (30 + a), ?_⟩
  rw [Function.iterate_add_apply, Function.iterate_add_apply, ha, hlast]
  rfl

/-- Day by day from the first one on every date comes. -/
theorem reached (t : Date) : ∃ n, next^[n] first = t := by
  have hyears : ∀ y (hy : 1 ≤ y), ∃ n, next^[n] first =
      ⟨y, 1, 1, hy, Nat.le_refl 1, monthDays_pos (by decide) (by decide)⟩ := by
    intro y
    induction y with
    | zero =>
        intro hy
        exact absurd hy (by decide)
    | succ y ih =>
        intro hy
        by_cases hfirst : y = 0
        · subst hfirst
          exact ⟨0, rfl⟩
        · have hpos : 1 ≤ y := Nat.one_le_iff_ne_zero.mpr hfirst
          obtain ⟨a, ha⟩ := ih hpos
          obtain ⟨b, hb⟩ := @reach_year y hpos
          refine ⟨b + a, ?_⟩
          rw [Function.iterate_add_apply, ha, hb]
  obtain ⟨a, ha⟩ := hyears t.year t.year_pos
  obtain ⟨b, hb⟩ := @reach_first t.year t.year_pos t.month t.month_pos t.month_le
  have hroom : 1 + (t.day - 1) = t.day := by
    have hday := t.day_pos
    omega
  have hday := @reach_day (t.day - 1) ⟨t.year, t.month, 1, t.year_pos, Nat.le_refl 1, monthDays_pos t.month_pos t.month_le⟩
    (by rw [hroom]; exact t.day_le)
  refine ⟨t.day - 1 + (b + a), ?_⟩
  rw [Function.iterate_add_apply, Function.iterate_add_apply, ha, hb, hday]
  simp only [hroom]

/-- The number of a date is how many days it takes to get there. -/
theorem iterate_number (t : Date) : next^[t.number - 1] first = t := by
  obtain ⟨n, rfl⟩ := reached t
  rw [number_iterate, number_first, Nat.add_sub_cancel_left]

end Date

end Vnt.Lib.Gregorian
