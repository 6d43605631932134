import Vnt.Lib.CheckedInt
import Vnt.Lib.Progression

/-!
# `Vnt.Runtime.Range`: `range()` (`native_runtime.c`)

The two loops of `vnt_range` with the array they push to. An addition or a subtraction that leaves the signed 64-bit
range, which C leaves undefined, is a fault of its own, and so is a loop that needs more turns than an array has places.
-/

namespace Vnt.Runtime

open Lib (checked checkedAdd checkedSub)
open Lib.Progression (Before count terms)

inductive RangeError where
  /-- `range() requires integer arguments.` -/
  | notInteger
  /-- `range() step cannot be zero.` -/
  | zeroStep
  /-- `array capacity limit exceeded.` -/
  | capacityLimit
  /-- `array allocation size overflow.` -/
  | allocationOverflow
  | signedOverflow
  | endless
  deriving DecidableEq, Repr

/-- An argument: an integer, or a value of another type. -/
inductive RangeArg where
  | int (x : Int64)
  | other
  deriving DecidableEq, Repr

/-- The `array` of a value: the items that count, and the places for items. -/
structure VntArray where
  items : List Int64
  capacity : Nat
  deriving DecidableEq, Repr

def VntArray.count (a : VntArray) : Nat := a.items.length

/-- `vnt_array_new`. -/
def vntArrayNew : VntArray := ⟨[], 0⟩

/-- `INT_MAX`. -/
def intMax : Nat := 2147483647

/-- `SIZE_MAX / sizeof(VntValue *)`. -/
def itemsMax : Nat := 18446744073709551615 / 8

/-- `vnt_array_push`. -/
def vntArrayPush (a : VntArray) (item : Int64) : Except RangeError VntArray :=
  if a.count = a.capacity then
    if a.capacity > intMax / 2 then .error .capacityLimit
    else
      let cap := if a.capacity ≠ 0 then a.capacity * 2 else 4
      if cap > itemsMax then .error .allocationOverflow else .ok ⟨a.items ++ [item], cap⟩
  else .ok { a with items := a.items ++ [item] }

/-- The result of an operation on signed numbers. -/
def signedResult : Option Int64 → Except RangeError Int64
  | some x => .ok x
  | none => .error .signedOverflow

/-- A loop of `vnt_range`: while `goesOn` the counter is pushed, and increased unless it `isLast`. -/
def rangeLoop (step : Int64) (goesOn : Int64 → Bool) (isLast : Int64 → Except RangeError Bool) :
    Nat → Int64 → VntArray → Except RangeError VntArray
  | 0, _, _ => .error .endless
  | fuel + 1, i, r =>
      if goesOn i then do
        let r ← vntArrayPush r i
        if ← isLast i then pure r
        else do
          let i ← signedResult (checkedAdd i step)
          rangeLoop step goesOn isLast fuel i r
      else pure r

/-- `for(int64_t i=start;i<end;) { …; if (i > INT64_MAX-step) break; i+=step; }` -/
def rangeUp (start stop step : Int64) : Except RangeError VntArray :=
  rangeLoop step (fun i => i < stop) (fun i => do
    let room ← signedResult (checkedSub Int64.maxValue step)
    pure (i > room)) (intMax + 1) start vntArrayNew

/-- `for(int64_t i=start;i>end;) { …; if (i < INT64_MIN-step) break; i+=step; }` -/
def rangeDown (start stop step : Int64) : Except RangeError VntArray :=
  rangeLoop step (fun i => i > stop) (fun i => do
    let room ← signedResult (checkedSub Int64.minValue step)
    pure (i < room)) (intMax + 1) start vntArrayNew

/-- What the arguments mean: `range(end)`, `range(start, end)` or `range(start, end, step)`. -/
def rangeArguments (a b c : RangeArg) (argc : Nat) : Except RangeError (Int64 × Int64 × Int64) :=
  if argc = 1 then
    match a with
    | .int stop => .ok (0, stop, 1)
    | _ => .error .notInteger
  else if argc = 2 then
    match a, b with
    | .int start, .int stop => .ok (start, stop, 1)
    | _, _ => .error .notInteger
  else
    match a, b, c with
    | .int start, .int stop, .int step => .ok (start, stop, step)
    | _, _, _ => .error .notInteger

def vntRange (a b c : RangeArg) (argc : Nat) : Except RangeError VntArray := do
  let (start, stop, step) ← rangeArguments a b c argc
  if step = 0 then .error .zeroStep
  else if step > 0 then rangeUp start stop step
  else rangeDown start stop step

/-! ## Pushing -/

variable {a : VntArray} {start stop step : Int64}

/-- The items fit, and the places are doubled from four on. -/
structure VntArray.Grown (a : VntArray) : Prop where
  fits : a.count ≤ a.capacity
  doubled : a.capacity = 0 ∨ ∃ j, j ≤ 28 ∧ a.capacity = 4 * 2 ^ j

theorem grown_new : vntArrayNew.Grown := ⟨Nat.le_refl 0, Or.inl rfl⟩

theorem VntArray.Grown.capacity_le (h : a.Grown) : a.capacity ≤ 2 ^ 30 := by
  rcases h.doubled with hzero | ⟨j, hj, hcap⟩
  · rw [hzero]
    exact Nat.zero_le _
  · have hpow : 2 ^ j ≤ 2 ^ 28 := Nat.pow_le_pow_right (by decide) hj
    rw [hcap]
    omega

/-- There is a place for an item as long as there are fewer than 2^30. -/
theorem vntArrayPush_ok (h : a.Grown) (hlimit : a.count < 2 ^ 30) (item : Int64) :
    ∃ a', vntArrayPush a item = .ok a' ∧ a'.items = a.items ++ [item] ∧ a'.Grown := by
  have hcount : (a.items ++ [item]).length = a.count + 1 := List.length_append
  unfold vntArrayPush
  by_cases hfull : a.count = a.capacity
  · rcases h.doubled with hzero | ⟨j, hj, hcap⟩
    · rw [if_pos hfull, hzero]
      refine ⟨_, rfl, rfl, ?_, Or.inr ⟨0, Nat.zero_le _, rfl⟩⟩
      show (a.items ++ [item]).length ≤ 4
      omega
    · -- Fewer than 2^30 items fill at most half of the largest array.
      have hsmall : j < 28 := by
        by_contra hlarge
        have hj28 : j = 28 := by omega
        rw [hj28] at hcap
        omega
      have hpow : 2 ^ j ≤ 2 ^ 27 := Nat.pow_le_pow_right (by decide) (by omega)
      have hpos : 0 < 2 ^ j := Nat.two_pow_pos j
      have hhalf : ¬ a.capacity > intMax / 2 := by
        unfold intMax
        omega
      have hitems : ¬ a.capacity * 2 > itemsMax := by
        unfold itemsMax
        omega
      rw [if_pos hfull, if_neg hhalf]
      simp only [show a.capacity ≠ 0 by omega, ne_eq, not_false_eq_true, if_true, hitems, if_false]
      refine ⟨_, rfl, rfl, ?_, Or.inr ⟨j + 1, hsmall, ?_⟩⟩
      · show (a.items ++ [item]).length ≤ a.capacity * 2
        omega
      · show a.capacity * 2 = 4 * 2 ^ (j + 1)
        rw [hcap, Nat.pow_succ]
        omega
  · have hfits := h.fits
    rw [if_neg hfull]
    refine ⟨_, rfl, rfl, ?_, h.doubled⟩
    show (a.items ++ [item]).length ≤ a.capacity
    omega

/-- The item after the 2^30th has no place. -/
theorem vntArrayPush_full (h : a.Grown) (hfull : a.count = 2 ^ 30) (item : Int64) :
    vntArrayPush a item = .error .capacityLimit := by
  have hfits := h.fits
  have hcap := h.capacity_le
  have hlimit : a.capacity > intMax / 2 := by
    unfold intMax
    omega
  rw [vntArrayPush, if_pos (by omega), if_pos hlimit]

/-! ## The loops -/

/-- What the comparison and the guard of a loop find out: whether there is a next term, and whether its successor is too
    large or too small for a signed number. -/
structure Guards (stop step : Int64) (goesOn : Int64 → Bool) (isLast : Int64 → Except RangeError Bool) : Prop where
  goesOn : ∀ i, goesOn i = true ↔ Before stop.toInt step.toInt i.toInt
  isLast : ∀ i, ∃ last, isLast i = .ok last ∧
    (last = false ↔ Int64.minValue.toInt ≤ i.toInt + step.toInt ∧ i.toInt + step.toInt ≤ Int64.maxValue.toInt)

theorem minValue_toInt : Int64.minValue.toInt = -9223372036854775808 := rfl

theorem maxValue_toInt : Int64.maxValue.toInt = 9223372036854775807 := rfl

/-- A subtraction that fits. -/
theorem signedResult_sub {x y : Int64} (hlow : Int64.minValue.toInt ≤ x.toInt - y.toInt)
    (hhigh : x.toInt - y.toInt ≤ Int64.maxValue.toInt) :
    ∃ z : Int64, signedResult (checkedSub x y) = .ok z ∧ z.toInt = x.toInt - y.toInt := by
  refine ⟨Int64.ofInt (x.toInt - y.toInt), ?_, Int64.toInt_ofInt_of_le hlow (Int.lt_of_le_of_lt hhigh (by decide))⟩
  rw [checkedSub, checked, if_pos ⟨hlow, hhigh⟩]
  rfl

/-- The next term, when it fits. -/
theorem signedResult_add {x y : Int64} (hlow : Int64.minValue.toInt ≤ x.toInt + y.toInt)
    (hhigh : x.toInt + y.toInt ≤ Int64.maxValue.toInt) :
    ∃ z : Int64, signedResult (checkedAdd x y) = .ok z ∧ z.toInt = x.toInt + y.toInt := by
  refine ⟨Int64.ofInt (x.toInt + y.toInt), ?_, Int64.toInt_ofInt_of_le hlow (Int.lt_of_le_of_lt hhigh (by decide))⟩
  rw [checkedAdd, checked, if_pos ⟨hlow, hhigh⟩]
  rfl

theorem guards_up (hstep : step > 0) : Guards stop step (fun i => i < stop) (fun i => do
    let room ← signedResult (checkedSub Int64.maxValue step)
    pure (i > room)) := by
  have hpos : 0 < step.toInt := Int64.lt_iff_toInt_lt.mp hstep
  have hhigh := Int64.toInt_lt step
  constructor
  · intro i
    rw [decide_eq_true_iff, Int64.lt_iff_toInt_lt, Before, if_pos hpos]
  · intro i
    have hi := Int64.le_toInt i
    have hmin := minValue_toInt
    have hmax := maxValue_toInt
    obtain ⟨room, hroom, hvalue⟩ := @signedResult_sub Int64.maxValue step (by omega) (by omega)
    refine ⟨decide (i > room), ?_, ?_⟩
    · rw [hroom]
      rfl
    · rw [decide_eq_false_iff_not, gt_iff_lt, Int64.lt_iff_toInt_lt, hvalue]
      omega

theorem guards_down (hstep : ¬ step > 0) (hne : step ≠ 0) : Guards stop step (fun i => i > stop) (fun i => do
    let room ← signedResult (checkedSub Int64.minValue step)
    pure (i < room)) := by
  have hneg : step.toInt < 0 := by
    have hle : ¬ (0 : Int64).toInt < step.toInt := fun h => hstep (Int64.lt_iff_toInt_lt.mpr h)
    have hzero : (0 : Int64).toInt = 0 := rfl
    have hne' : step.toInt ≠ 0 := fun h => hne (Int64.toInt_inj.mp (h.trans hzero.symm))
    omega
  have hlow := Int64.le_toInt step
  constructor
  · intro i
    rw [decide_eq_true_iff, gt_iff_lt, Int64.lt_iff_toInt_lt, Before, if_neg (by omega)]
  · intro i
    have hi := Int64.toInt_lt i
    have hmin := minValue_toInt
    have hmax := maxValue_toInt
    obtain ⟨room, hroom, hvalue⟩ := @signedResult_sub Int64.minValue step (by omega) (by omega)
    refine ⟨decide (i < room), ?_, ?_⟩
    · rw [hroom]
      rfl
    · rw [decide_eq_false_iff_not, Int64.lt_iff_toInt_lt, hvalue]
      omega

variable {goesOn : Int64 → Bool} {isLast : Int64 → Except RangeError Bool}

/-- Behind the last term that is a signed number there is none before `stop`. -/
theorem count_last (hstep : step.toInt ≠ 0) {i : Int64} (h : ¬ (Int64.minValue.toInt ≤ i.toInt + step.toInt ∧
    i.toInt + step.toInt ≤ Int64.maxValue.toInt)) : count (i.toInt + step.toInt) stop.toInt step.toInt = 0 := by
  apply Lib.Progression.count_eq_zero hstep
  have hmin := minValue_toInt
  have hmax := maxValue_toInt
  have hi := Int64.le_toInt i
  have hi' := Int64.toInt_lt i
  have hstop := Int64.le_toInt stop
  have hstop' := Int64.toInt_lt stop
  unfold Before
  split <;> omega

/-- A loop with room for the terms pushes exactly these. -/
theorem rangeLoop_ok (guards : Guards stop step goesOn isLast) (hstep : step.toInt ≠ 0) (fuel : Nat) :
    ∀ {i : Int64} {r : VntArray}, r.Grown → r.count + count i.toInt stop.toInt step.toInt ≤ 2 ^ 30 →
      2 ^ 30 - r.count < fuel → ∃ r', rangeLoop step goesOn isLast fuel i r = .ok r' ∧
        r'.items.map Int64.toInt = r.items.map Int64.toInt ++
          terms i.toInt step.toInt (count i.toInt stop.toInt step.toInt) := by
  induction fuel with
  | zero =>
      intro i r _ _ hfuel
      exact absurd hfuel (Nat.not_lt_zero _)
  | succ fuel ih =>
      intro i r hgrown hroom hfuel
      unfold rangeLoop
      by_cases hbefore : Before stop.toInt step.toInt i.toInt
      · have hcount := Lib.Progression.count_succ hstep hbefore
        rw [hcount] at hroom
        obtain ⟨r₁, hpush, hitems, hgrown₁⟩ := vntArrayPush_ok hgrown (by omega) i
        have hlen : r₁.count = r.count + 1 := by
          show r₁.items.length = r.items.length + 1
          rw [hitems, List.length_append, List.length_singleton]
        have hmap : r₁.items.map Int64.toInt = r.items.map Int64.toInt ++ [i.toInt] := by
          rw [hitems, List.map_append, List.map_singleton]
        obtain ⟨last, hlast, hfits⟩ := guards.isLast i
        rw [if_pos ((guards.goesOn i).mpr hbefore), hpush, hcount, Lib.Progression.terms_succ]
        show ∃ r', (isLast i >>= fun last => if last = true then pure r₁ else
          signedResult (checkedAdd i step) >>= fun i => rangeLoop step goesOn isLast fuel i r₁) = .ok r' ∧ _
        rw [hlast]
        cases last with
        | true =>
            have hzero := @count_last stop step hstep i (fun h => Bool.false_ne_true (hfits.mpr h).symm)
            refine ⟨r₁, rfl, ?_⟩
            rw [hzero, hmap]
            rfl
        | false =>
            obtain ⟨hlow, hhigh⟩ := hfits.mp rfl
            obtain ⟨next, hnext, hvalue⟩ := signedResult_add hlow hhigh
            rw [← hvalue] at hroom ⊢
            obtain ⟨r', hrun, hmap'⟩ := @ih next r₁ hgrown₁ (by omega) (by omega)
            refine ⟨r', ?_, ?_⟩
            · show (signedResult (checkedAdd i step) >>= fun i => rangeLoop step goesOn isLast fuel i r₁) = _
              rw [hnext]
              exact hrun
            · rw [hmap', hmap, List.append_assoc]
              rfl
      · rw [if_neg (mt (guards.goesOn i).mp hbefore), Lib.Progression.count_eq_zero hstep hbefore]
        exact ⟨r, rfl, (List.append_nil _).symm⟩

/-- A loop with more terms than an array has places for ends at the limit. -/
theorem rangeLoop_full (guards : Guards stop step goesOn isLast) (hstep : step.toInt ≠ 0) (fuel : Nat) :
    ∀ {i : Int64} {r : VntArray}, r.Grown → 2 ^ 30 < r.count + count i.toInt stop.toInt step.toInt →
      2 ^ 30 - r.count < fuel → rangeLoop step goesOn isLast fuel i r = .error .capacityLimit := by
  induction fuel with
  | zero =>
      intro i r _ _ hfuel
      exact absurd hfuel (Nat.not_lt_zero _)
  | succ fuel ih =>
      intro i r hgrown hmany hfuel
      have hcap := Nat.le_trans hgrown.fits hgrown.capacity_le
      have hbefore : Before stop.toInt step.toInt i.toInt := by
        by_contra hnone
        rw [Lib.Progression.count_eq_zero hstep hnone] at hmany
        omega
      unfold rangeLoop
      rw [if_pos ((guards.goesOn i).mpr hbefore)]
      by_cases hfull : r.count = 2 ^ 30
      · rw [vntArrayPush_full hgrown hfull]
        rfl
      · rw [Lib.Progression.count_succ hstep hbefore] at hmany
        obtain ⟨r₁, hpush, hitems, hgrown₁⟩ := vntArrayPush_ok hgrown (by omega) i
        have hlen : r₁.count = r.count + 1 := by
          show r₁.items.length = r.items.length + 1
          rw [hitems, List.length_append, List.length_singleton]
        obtain ⟨last, hlast, hfits⟩ := guards.isLast i
        rw [hpush]
        show (isLast i >>= fun last => if last = true then pure r₁ else
          signedResult (checkedAdd i step) >>= fun i => rangeLoop step goesOn isLast fuel i r₁) = _
        rw [hlast]
        cases last with
        | true =>
            rw [@count_last stop step hstep i (fun h => Bool.false_ne_true (hfits.mpr h).symm)] at hmany
            omega
        | false =>
            obtain ⟨hlow, hhigh⟩ := hfits.mp rfl
            obtain ⟨next, hnext, hvalue⟩ := signedResult_add hlow hhigh
            rw [← hvalue] at hmany
            show (signedResult (checkedAdd i step) >>= fun i => rangeLoop step goesOn isLast fuel i r₁) = _
            rw [hnext]
            exact ih hgrown₁ (by omega) (by omega)

theorem vntRange_run {a b c : RangeArg} {argc : Nat} (hargs : rangeArguments a b c argc = .ok (start, stop, step))
    (hstep : step ≠ 0) : vntRange a b c argc = if step > 0 then rangeUp start stop step else rangeDown start stop step := by
  unfold vntRange
  rw [hargs]
  show (if step = 0 then _ else _) = _
  rw [if_neg hstep]

theorem toInt_ne_zero (hstep : step ≠ 0) : step.toInt ≠ 0 := fun h => hstep (Int64.toInt_inj.mp h)

/-- More terms than an array has places for. -/
theorem vntRange_full {a b c : RangeArg} {argc : Nat} (hargs : rangeArguments a b c argc = .ok (start, stop, step))
    (hstep : step ≠ 0) (hmany : 2 ^ 30 < count start.toInt stop.toInt step.toInt) :
    vntRange a b c argc = .error .capacityLimit := by
  have hnew : 2 ^ 30 < vntArrayNew.count + count start.toInt stop.toInt step.toInt := by
    show 2 ^ 30 < 0 + _
    omega
  have hfuel : 2 ^ 30 - vntArrayNew.count < intMax + 1 := by decide
  rw [vntRange_run hargs hstep]
  by_cases hpos : step > 0
  · rw [if_pos hpos]
    exact rangeLoop_full (guards_up hpos) (toInt_ne_zero hstep) (intMax + 1) grown_new hnew hfuel
  · rw [if_neg hpos]
    exact rangeLoop_full (guards_down hpos hstep) (toInt_ne_zero hstep) (intMax + 1) grown_new hnew hfuel

/-- `range()` returns the terms of the progression before its end, if an array has room for them. -/
theorem vntRange_exact {a b c : RangeArg} {argc : Nat} (hargs : rangeArguments a b c argc = .ok (start, stop, step))
    (hstep : step ≠ 0) (hroom : count start.toInt stop.toInt step.toInt ≤ 2 ^ 30) :
    ∃ r, vntRange a b c argc = .ok r ∧
      r.items.map Int64.toInt = terms start.toInt step.toInt (count start.toInt stop.toInt step.toInt) ∧
      ∀ k : Nat, Before stop.toInt step.toInt (start.toInt + k * step.toInt) ↔
        k < count start.toInt stop.toInt step.toInt := by
  have hne := toInt_ne_zero hstep
  have hnew : vntArrayNew.count + count start.toInt stop.toInt step.toInt ≤ 2 ^ 30 := by
    show 0 + _ ≤ _
    omega
  have hfuel : 2 ^ 30 - vntArrayNew.count < intMax + 1 := by decide
  rw [vntRange_run hargs hstep]
  by_cases hpos : step > 0
  · obtain ⟨r, hloop, hitems⟩ := rangeLoop_ok (guards_up hpos) hne (intMax + 1) grown_new hnew hfuel
    rw [if_pos hpos]
    exact ⟨r, hloop, hitems, Lib.Progression.before_iff hne⟩
  · obtain ⟨r, hloop, hitems⟩ := rangeLoop_ok (guards_down hpos hstep) hne (intMax + 1) grown_new hnew hfuel
    rw [if_neg hpos]
    exact ⟨r, hloop, hitems, Lib.Progression.before_iff hne⟩

/-- The largest steps, at the ends of the signed numbers. -/
theorem range_at_the_limits : ∃ r, vntRange (.int 9223372036854775807) (.int (-9223372036854775808))
    (.int (-9223372036854775808)) 3 = .ok r ∧ r.items.map Int64.toInt = [9223372036854775807, -1] ∧
    ∀ k : Nat, Before (-9223372036854775808) (-9223372036854775808) (9223372036854775807 + k * -9223372036854775808) ↔
      k < 2 := by
  have hargs : rangeArguments (.int 9223372036854775807) (.int (-9223372036854775808)) (.int (-9223372036854775808)) 3 =
      .ok (9223372036854775807, -9223372036854775808, -9223372036854775808) := rfl
  exact vntRange_exact hargs (by decide) (by decide)

end Vnt.Runtime
