import Mathlib.Data.List.Basic

/-!
# `Lib.CheckedInt` — signed 64-bit arithmetic that reports overflow

Each operation computes on the mathematical integers and answers `none` when the result is not a signed
64-bit number; division and remainder truncate towards zero and answer `none` for a zero divisor and for
the one quotient that does not fit.
-/

namespace Vnt.Lib

/-- The signed 64-bit number equal to `z`, if there is one. -/
def checked (z : Int) : Option Int64 :=
  if Int64.minValue.toInt ≤ z ∧ z ≤ Int64.maxValue.toInt then some (Int64.ofInt z) else none

def checkedAdd (x y : Int64) : Option Int64 := checked (x.toInt + y.toInt)

def checkedSub (x y : Int64) : Option Int64 := checked (x.toInt - y.toInt)

def checkedMul (x y : Int64) : Option Int64 := checked (x.toInt * y.toInt)

/-- Truncating division. -/
def checkedDiv (x y : Int64) : Option Int64 :=
  if y = 0 ∨ (x = Int64.minValue ∧ y = -1) then none else some (Int64.ofInt (x.toInt.tdiv y.toInt))

/-- The remainder that goes with `checkedDiv`. -/
def checkedMod (x y : Int64) : Option Int64 :=
  if y = 0 ∨ (x = Int64.minValue ∧ y = -1) then none else some (Int64.ofInt (x.toInt.tmod y.toInt))

def checkedNeg (x : Int64) : Option Int64 :=
  if x = Int64.minValue then none else some (-x)

/-- A result that is exact is the checked one. -/
theorem checked_of_toInt {z : Int} {r : Int64} (h : r.toInt = z) : checked z = some r := by
  have hlow := Int64.le_toInt r
  have hhigh := Int64.toInt_lt r
  have hmin : Int64.minValue.toInt = -2 ^ 63 := rfl
  have hmax : Int64.maxValue.toInt = 2 ^ 63 - 1 := rfl
  unfold checked
  rw [if_pos ⟨by omega, by omega⟩, ← h, Int64.ofInt_toInt]

end Vnt.Lib
