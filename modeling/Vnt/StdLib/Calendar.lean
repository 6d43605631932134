import Vnt.Lib.Gregorian
import Vnt.StdLib.Arrays

/-!
# `StdLib.Calendar` — dates (`time.vnt`)

`is_leap_year`, `days_in_month`, `is_valid_date`, `day_of_year` and `weekday` on all integers, against the calendar of
`Lib.Gregorian`. The formula of `weekday` shifts the year so that the leap day is its last, and reads the months off a table.
-/

namespace Vnt.StdLib

open Lib (Turn)
open Lib.Gregorian (IsLeap monthDays daysBeforeMonth daysOfYears Date)

def leapYearValue (year : Int) : Hosted Bool := do
  if (← vntMod year 400) = 0 then pure true
  else if (← vntMod year 100) = 0 then pure false
  else do
    let remainder ← vntMod year 4
    pure (remainder = 0)

def daysInMonthValue (year month : Int) : Hosted Int :=
  if month < 1 ∨ month > 12 then pure 0
  else if month = 2 then do
    if ← leapYearValue year then pure 29 else pure 28
  else if month = 4 ∨ month = 6 ∨ month = 9 ∨ month = 11 then pure 30
  else pure 31

def validDateValue (year month day : Int) : Hosted Bool :=
  if year < 1 ∨ day < 1 then pure false
  else do
    let monthDays ← daysInMonthValue year month
    pure (monthDays > 0 ∧ day ≤ monthDays)

/-- `while current_month < month { … }` -/
def dayOfYearTurn (year month : Int) : Int × Int → Hosted (Turn (Int × Int) Int)
  | (total, currentMonth) =>
      if currentMonth < month then do
        let days ← daysInMonthValue year currentMonth
        let total ← vntAdd total days
        let currentMonth ← vntAdd currentMonth 1
        pure (.next (total, currentMonth))
      else pure (.done total)

def dayOfYearValue (year month day : Int) : Hosted Int := do
  if !(← validDateValue year month day) then pure (-1)
  else whileLoop allTurns (dayOfYearTurn year month) (day, 1)

def weekdayOffsets : List Int := [0, 3, 2, 5, 0, 3, 5, 1, 4, 6, 2, 4]

/-- `offsets[index]` -/
def offsetAt (index : Int) : Hosted Int := do
  match ← arrayGet (weekdayOffsets.map .int) index with
  | .int z => pure z
  | _ => .error .stuck

/-- `adjusted_year`, one less if `month < 3` -/
def adjustYear (year month : Int) : Hosted Int := if month < 3 then vntSub year 1 else pure year

def weekdayValue (year month day : Int) : Hosted Int := do
  if !(← validDateValue year month day) then pure (-1)
  else do
    let adjustedYear ← adjustYear year month
    let fourth ← vntDiv adjustedYear 4
    let sum ← vntAdd adjustedYear fourth
    let hundredth ← vntDiv adjustedYear 100
    let sum ← vntSub sum hundredth
    let fourHundredth ← vntDiv adjustedYear 400
    let sum ← vntAdd sum fourHundredth
    let index ← vntSub month 1
    let offset ← offsetAt index
    let sum ← vntAdd sum offset
    let sum ← vntAdd sum day
    vntMod sum 7

def isValidDate (year month day : Int) : Hosted Bool := validDateValue year month day

def dayOfYear (year month day : Int) : Hosted Int := dayOfYearValue year month day

def weekday (year month day : Int) : Hosted Int := weekdayValue year month day

/-! ## Validity -/

variable {year month day : Int} {n k : ℕ} {t : Date}

theorem vntMod_nat (n k : ℕ) (hk : k ≠ 0) : vntMod n k = .ok ((n % k : ℕ) : Int) := by
  have hpos : (k : Int) ≠ 0 := by omega
  rw [vntMod_ok hpos (by omega)]
  rfl

theorem vntDiv_nat (n k : ℕ) (hk : k ≠ 0) : vntDiv n k = .ok ((n / k : ℕ) : Int) := by
  have hpos : (k : Int) ≠ 0 := by omega
  rw [vntDiv_ok hpos (by omega)]
  rfl

theorem leapYearValue_ok (n : ℕ) : leapYearValue n = .ok (decide (IsLeap n)) := by
  have h400 : vntMod n 400 = .ok ((n % 400 : ℕ) : Int) := vntMod_nat n 400 (by decide)
  have h100 : vntMod n 100 = .ok ((n % 100 : ℕ) : Int) := vntMod_nat n 100 (by decide)
  have h4 : vntMod n 4 = .ok ((n % 4 : ℕ) : Int) := vntMod_nat n 4 (by decide)
  unfold leapYearValue
  rw [h400, h100, h4]
  show (if ((n % 400 : ℕ) : Int) = 0 then Except.ok true else if ((n % 100 : ℕ) : Int) = 0 then Except.ok false
    else Except.ok (decide (((n % 4 : ℕ) : Int) = 0))) = _
  by_cases hcentury : n % 400 = 0
  · have hleap : IsLeap n := Or.inl hcentury
    rw [if_pos (by omega), decide_eq_true hleap]
  rw [if_neg (by omega)]
  by_cases hhundred : n % 100 = 0
  · have hleap : ¬IsLeap n := by
      rintro (h | ⟨h, -⟩)
      · exact hcentury h
      · exact h hhundred
    rw [if_pos (by omega), decide_eq_false hleap]
  · have hleap : ((n % 4 : ℕ) : Int) = 0 ↔ IsLeap n := by
      unfold IsLeap
      omega
    rw [if_neg (by omega), decide_eq_decide.mpr hleap]

/-- The months of a year, and no others. -/
theorem daysInMonthValue_ok (n : ℕ) (month : Int) : daysInMonthValue n month = .ok (monthDays n month.toNat) := by
  unfold daysInMonthValue monthDays
  by_cases hrange : month < 1 ∨ month > 12
  · have hnone : ¬month.toNat = 2 ∧ ¬(month.toNat = 4 ∨ month.toNat = 6 ∨ month.toNat = 9 ∨ month.toNat = 11) ∧
        ¬(1 ≤ month.toNat ∧ month.toNat ≤ 12) := by
      omega
    rw [if_pos hrange, if_neg hnone.1, if_neg hnone.2.1, if_neg hnone.2.2]
    rfl
  rw [if_neg hrange]
  by_cases hfebruary : month = 2
  · have hsecond : month.toNat = 2 := by omega
    rw [if_pos hfebruary, if_pos hsecond, leapYearValue_ok]
    show (if decide (IsLeap n) = true then Except.ok 29 else Except.ok 28) = _
    by_cases hleap : IsLeap n
    · rw [decide_eq_true hleap, if_pos rfl, if_pos hleap]
      rfl
    · rw [decide_eq_false hleap, if_neg Bool.false_ne_true, if_neg hleap]
      rfl
  have hsecond : ¬month.toNat = 2 := by omega
  rw [if_neg hfebruary, if_neg hsecond]
  by_cases hthirty : month = 4 ∨ month = 6 ∨ month = 9 ∨ month = 11
  · have hshort : month.toNat = 4 ∨ month.toNat = 6 ∨ month.toNat = 9 ∨ month.toNat = 11 := by omega
    rw [if_pos hthirty, if_pos hshort]
    rfl
  · have hlong : ¬(month.toNat = 4 ∨ month.toNat = 6 ∨ month.toNat = 9 ∨ month.toNat = 11) ∧
        1 ≤ month.toNat ∧ month.toNat ≤ 12 := by
      omega
    rw [if_neg hthirty, if_neg hlong.1, if_pos hlong.2]
    rfl

/-- The three numbers are those of a date. -/
def IsDate (year month day : Int) (t : Date) : Prop := year = t.year ∧ month = t.month ∧ day = t.day

theorem validDateValue_ok (t : Date) : validDateValue t.year t.month t.day = .ok true := by
  have hyear := t.year_pos
  have hday := t.day_pos
  have hle := t.day_le
  rw [validDateValue, if_neg (by omega), daysInMonthValue_ok, Int.toNat_natCast]
  refine congrArg Except.ok (decide_eq_true ⟨?_, ?_⟩)
  · omega
  · omega

/-- What is valid is a date. -/
theorem validDateValue_cases (year month day : Int) :
    (∃ t : Date, IsDate year month day t) ∨ validDateValue year month day = .ok false := by
  unfold validDateValue
  by_cases hsmall : year < 1 ∨ day < 1
  · rw [if_pos hsmall]
    exact Or.inr rfl
  obtain ⟨n, rfl⟩ : ∃ n : ℕ, year = n := ⟨year.toNat, by omega⟩
  obtain ⟨d, rfl⟩ : ∃ d : ℕ, day = d := ⟨day.toNat, by omega⟩
  rw [if_neg hsmall, daysInMonthValue_ok]
  show _ ∨ Except.ok (decide (((monthDays n month.toNat : ℕ) : Int) > 0 ∧ (d : Int) ≤ (monthDays n month.toNat : ℕ))) = _
  by_cases hday : d ≤ monthDays n month.toNat
  · have hpos : 1 ≤ monthDays n month.toNat := by omega
    have hmonth := Lib.Gregorian.month_bounds hpos
    have hback : month = (month.toNat : Int) := by omega
    exact Or.inl ⟨⟨n, month.toNat, d, by omega, by omega, hday⟩, rfl, hback, rfl⟩
  · exact Or.inr (congrArg Except.ok (decide_eq_false fun h => by omega))

/-! ## The day of the year -/

theorem dayOfYearTurn_next (hlt : k < t.month) (total : ℕ) (hroom : total ≤ 366) :
    dayOfYearTurn t.year t.month ((total : Int), (k : Int)) =
      .ok (.next (((total + monthDays t.year k : ℕ) : Int), ((k + 1 : ℕ) : Int))) := by
  have hmonth := t.month_le
  have hsmall : monthDays t.year k ≤ 31 := by
    unfold monthDays
    split_ifs <;> omega
  have htotal : vntAdd total (monthDays t.year k) = .ok ((total + monthDays t.year k : ℕ) : Int) :=
    vntAdd_ok (by unfold IsInt64 int64Min int64Max; omega)
  have hnext : vntAdd k 1 = .ok ((k + 1 : ℕ) : Int) := vntAdd_ok (by unfold IsInt64 int64Min int64Max; omega)
  have hbefore : (k : Int) < t.month := by omega
  rw [dayOfYearTurn, if_pos hbefore, daysInMonthValue_ok, Int.toNat_natCast, ok_bind, htotal, ok_bind, hnext, ok_bind]
  rfl

theorem daysBeforeMonth_le (y : ℕ) {m : ℕ} (hlow : 1 ≤ m) (hhigh : m ≤ 12) : daysBeforeMonth y m ≤ 335 := by
  rw [Lib.Gregorian.daysBeforeMonth_table y hlow (by omega)]
  have hcases : m = 1 ∨ m = 2 ∨ m = 3 ∨ m = 4 ∨ m = 5 ∨ m = 6 ∨ m = 7 ∨ m = 8 ∨ m = 9 ∨ m = 10 ∨ m = 11 ∨ m = 12 := by
    omega
  have hextra : (if 3 ≤ m ∧ IsLeap y then 1 else 0) ≤ 1 := by
    split <;> decide
  rcases hcases with rfl | rfl | rfl | rfl | rfl | rfl | rfl | rfl | rfl | rfl | rfl | rfl <;>
    exact Nat.le_trans (Nat.add_le_add_left hextra _) (by decide)

theorem dayOfYearLoop_ok (t : Date) : whileLoop allTurns (dayOfYearTurn t.year t.month) ((t.day : Int), 1) =
    .ok ((daysBeforeMonth t.year t.month + t.day : ℕ) : Int) := by
  have hmonth := t.month_le
  have hpos := t.month_pos
  have hday := t.day_le
  -- The months in front of the current one have been added.
  have htotal := @whileLoop_total _ _ (dayOfYearTurn t.year t.month) allTurns ((t.day : Int), 1)
    (fun s => ∃ k : ℕ, 1 ≤ k ∧ k ≤ t.month ∧ s = (((t.day + daysBeforeMonth t.year k : ℕ) : Int), (k : Int)))
    (fun r => r = ((daysBeforeMonth t.year t.month + t.day : ℕ) : Int)) (fun s => (t.month - s.2).toNat) ?_
    ⟨1, Nat.le_refl 1, hpos, rfl⟩ ?_
  · obtain ⟨r, hrun, rfl⟩ := htotal
    exact hrun
  · rintro s ⟨k, hlow, hhigh, rfl⟩
    by_cases hlt : k < t.month
    · have hsmall := daysBeforeMonth_le t.year hlow (by omega)
      have hthirtyOne : t.day ≤ 31 := by
        refine Nat.le_trans hday ?_
        unfold monthDays
        split_ifs <;> omega
      refine ⟨_, dayOfYearTurn_next hlt _ (by omega), ⟨k + 1, Nat.le_add_left 1 k, hlt, ?_⟩, ?_⟩
      · rw [Nat.add_assoc]
        rfl
      · show ((t.month : Int) - ((k + 1 : ℕ) : Int)).toNat < ((t.month : Int) - (k : Int)).toNat
        omega
    · have hlast : k = t.month := Nat.le_antisymm hhigh (Nat.le_of_not_lt hlt)
      refine ⟨.done ((t.day + daysBeforeMonth t.year k : ℕ) : Int), ?_, ?_⟩
      · rw [dayOfYearTurn, if_neg (by omega)]
        rfl
      · show ((t.day + daysBeforeMonth t.year k : ℕ) : Int) = _
        rw [hlast, Nat.add_comm]
  · show ((t.month : Int) - 1).toNat < allTurns
    unfold allTurns
    omega

theorem dayOfYear_ok (t : Date) : dayOfYear t.year t.month t.day = .ok (1 + (t.number - t.newYear.number : Int)) := by
  have hnumber : (1 + (t.number - t.newYear.number : Int)) = ((daysBeforeMonth t.year t.month + t.day : ℕ) : Int) := by
    have hjanuary : t.newYear.number = daysOfYears (t.year - 1) + 0 + 1 := rfl
    rw [hjanuary, Date.number]
    omega
  rw [dayOfYear, dayOfYearValue, validDateValue_ok]
  show whileLoop allTurns (dayOfYearTurn t.year t.month) ((t.day : Int), 1) = _
  rw [dayOfYearLoop_ok, hnumber]

/-! ## The day of the week -/

/-- The year the formula counts with. -/
def shiftedYear (year month : ℕ) : ℕ := if month < 3 then year - 1 else year

def monthOffset (month : ℕ) : ℕ := [0, 3, 2, 5, 0, 3, 5, 1, 4, 6, 2, 4].getD (month - 1) 0

/-- Whole weeks apart from the days that the months and the year count differently. -/
theorem week_shifted {days year fourths hundredths quarters months offset extra : ℕ}
    (hyears : days + extra + hundredths = 365 * year + fourths + quarters) (hmonths : months % 7 = (offset + extra) % 7)
    (d : ℕ) : (year + fourths + quarters + offset + d) % 7 = (days + months + d + hundredths) % 7 := by
  have hweeks : (days + months + d + hundredths) + extra = (year + fourths + quarters) + 7 * (52 * year) + months + d := by
    omega
  clear hyears
  generalize year + fourths + quarters = a at hweeks ⊢
  generalize days + months + d + hundredths = b at hweeks ⊢
  omega

/-- In March and later the leap day of the year has been, in the first two months it has not. -/
theorem shiftedYear_number (t : Date) :
    (shiftedYear t.year t.month + shiftedYear t.year t.month / 4 + shiftedYear t.year t.month / 400 + monthOffset t.month +
      t.day) % 7 = (t.number + shiftedYear t.year t.month / 100) % 7 := by
  have hmonth := t.month_le
  have hpos := t.month_pos
  obtain ⟨p, hp⟩ : ∃ p, t.year = p + 1 := ⟨t.year - 1, by have hyear := t.year_pos; omega⟩
  have hbefore := Lib.Gregorian.daysOfYears_eq p
  have htable := Lib.Gregorian.daysBeforeMonth_table t.year hpos (Nat.le_succ_of_le hmonth)
  have hnumber : t.number = daysOfYears p + daysBeforeMonth t.year t.month + t.day := by
    rw [Date.number, hp]
    rfl
  rw [hnumber, htable]
  by_cases hearly : t.month < 3
  · have hshifted : shiftedYear t.year t.month = p := by
      rw [shiftedYear, if_pos hearly, hp]
      rfl
    have hcases : t.month = 1 ∨ t.month = 2 := by omega
    rw [hshifted, if_neg (fun h => absurd h.1 (Nat.not_le_of_lt hearly))]
    apply @week_shifted _ _ _ _ _ _ _ 0 hbefore
    rcases hcases with h | h <;> rw [h] <;> rfl
  · have hshifted : shiftedYear t.year t.month = t.year := if_neg hearly
    have hafter := Lib.Gregorian.daysOfYears_eq t.year
    have hcases : t.month = 3 ∨ t.month = 4 ∨ t.month = 5 ∨ t.month = 6 ∨ t.month = 7 ∨ t.month = 8 ∨ t.month = 9 ∨
        t.month = 10 ∨ t.month = 11 ∨ t.month = 12 := by
      omega
    -- What the leap day adds to the months is what it adds to the year.
    have hyear : daysOfYears t.year = daysOfYears p + (365 + if 3 ≤ t.month ∧ IsLeap t.year then 1 else 0) := by
      rw [hp]
      show daysOfYears p + Lib.Gregorian.yearDays (p + 1) = _
      unfold Lib.Gregorian.yearDays
      by_cases hleap : IsLeap (p + 1)
      · rw [if_pos hleap, if_pos ⟨Nat.le_of_not_lt hearly, hleap⟩]
      · rw [if_neg hleap, if_neg (fun h => hleap h.2)]
    rw [hyear] at hafter
    rw [hshifted]
    apply week_shifted hafter
    generalize (if 3 ≤ t.month ∧ IsLeap t.year then 1 else 0) = leapDay
    have hextra : ∀ months offset : ℕ, months % 7 = (offset + 1) % 7 →
        (months + leapDay) % 7 = (offset + (365 + leapDay)) % 7 := by
      intro months offset h
      omega
    rcases hcases with h | h | h | h | h | h | h | h | h | h <;> rw [h] <;> exact hextra _ _ rfl

theorem offsetAt_ok {month : ℕ} (hlow : 1 ≤ month) (hhigh : month ≤ 12) :
    offsetAt ((month - 1 : ℕ) : Int) = .ok (monthOffset month) := by
  have hcases : month = 1 ∨ month = 2 ∨ month = 3 ∨ month = 4 ∨ month = 5 ∨ month = 6 ∨ month = 7 ∨ month = 8 ∨ month = 9 ∨
      month = 10 ∨ month = 11 ∨ month = 12 := by
    omega
  rcases hcases with rfl | rfl | rfl | rfl | rfl | rfl | rfl | rfl | rfl | rfl | rfl | rfl <;> rfl

theorem vntAdd_nat {a b : ℕ} (h : a + b < 2 ^ 63) : vntAdd a b = .ok ((a + b : ℕ) : Int) :=
  vntAdd_ok (by unfold IsInt64 int64Min int64Max; omega)

theorem vntSub_nat {a b : ℕ} (hle : b ≤ a) (h : a < 2 ^ 63) : vntSub a b = .ok ((a - b : ℕ) : Int) := by
  rw [vntSub_ok (by unfold IsInt64 int64Min int64Max; omega), Int.ofNat_sub hle]

theorem monthOffset_le (month : ℕ) : monthOffset month ≤ 6 := by
  unfold monthOffset
  rw [List.getD_eq_getElem?_getD]
  cases hget : ([0, 3, 2, 5, 0, 3, 5, 1, 4, 6, 2, 4] : List ℕ)[month - 1]? with
  | none => exact Nat.zero_le 6
  | some offset =>
      have hall : ∀ x ∈ ([0, 3, 2, 5, 0, 3, 5, 1, 4, 6, 2, 4] : List ℕ), x ≤ 6 := by decide
      exact hall offset (List.mem_of_getElem? hget)

theorem weekday_ok (t : Date) (hsmall : t.year + t.year / 4 + t.year / 400 + 40 < 2 ^ 63) :
    weekday t.year t.month t.day = .ok ((t.number % 7 : ℕ) : Int) := by
  have hmonth := t.month_le
  have hpos := t.month_pos
  have hyear := t.year_pos
  have hday : t.day ≤ 31 := by
    refine Nat.le_trans t.day_le ?_
    unfold monthDays
    split_ifs <;> omega
  have hnumber := shiftedYear_number t
  have hoffset := monthOffset_le t.month
  have hadjusted : adjustYear t.year t.month = .ok (shiftedYear t.year t.month : Int) := by
    unfold adjustYear shiftedYear
    by_cases hearly : t.month < 3
    · have hearly' : (t.month : Int) < 3 := by omega
      rw [if_pos hearly, if_pos hearly']
      exact vntSub_nat hyear (by omega)
    · have hearly' : ¬(t.month : Int) < 3 := by omega
      rw [if_neg hearly, if_neg hearly']
      rfl
  have hle : shiftedYear t.year t.month ≤ t.year := by
    unfold shiftedYear
    split_ifs <;> omega
  generalize shiftedYear t.year t.month = a at hadjusted hnumber hle
  have hindex : vntSub t.month 1 = .ok ((t.month - 1 : ℕ) : Int) := vntSub_nat hpos (by omega)
  have hfourth : vntDiv a 4 = .ok ((a / 4 : ℕ) : Int) := vntDiv_nat a 4 (by decide)
  have hhundredth : vntDiv a 100 = .ok ((a / 100 : ℕ) : Int) := vntDiv_nat a 100 (by decide)
  have hquarter : vntDiv a 400 = .ok ((a / 400 : ℕ) : Int) := vntDiv_nat a 400 (by decide)
  have hquotients : a / 4 ≤ t.year / 4 ∧ a / 400 ≤ t.year / 400 ∧ a / 100 ≤ a / 4 := by omega
  rw [weekday, weekdayValue, validDateValue_ok, ok_bind, if_neg (show ¬(!true) = true from Bool.false_ne_true), hadjusted,
    ok_bind, hfourth, ok_bind, vntAdd_nat (by omega), ok_bind, hhundredth, ok_bind,
    vntSub_nat (by omega) (by omega), ok_bind, hquarter, ok_bind, vntAdd_nat (by omega), ok_bind, hindex, ok_bind,
    offsetAt_ok hpos hmonth, ok_bind, vntAdd_nat (by omega), ok_bind, vntAdd_nat (by omega), ok_bind]
  refine (vntMod_nat _ 7 (by decide)).trans ?_
  refine congrArg (fun n : ℕ => Except.ok (n : Int)) ?_
  omega

/-! ## The calendar -/

theorem newYear_le (t : Date) : t.newYear.number ≤ t.number := by
  have hfirst : t.newYear.number = daysOfYears (t.year - 1) + 0 + 1 := rfl
  have hday := t.day_pos
  rw [hfirst, Date.number]
  omega

/-- From the new year on the days of the year come. -/
theorem iterate_newYear (t : Date) : Date.next^[t.number - t.newYear.number] t.newYear = t := by
  have hpos := t.newYear.number_pos
  have hle := newYear_le t
  have hsplit : t.number - 1 = t.number - t.newYear.number + (t.newYear.number - 1) := by omega
  have hreach := Date.iterate_number t
  rwa [hsplit, Function.iterate_add_apply, Date.iterate_number] at hreach

/-- 29 February 2000 was a Tuesday. -/
example : weekday 2000 2 29 = .ok 2 := by decide

end Vnt.StdLib
