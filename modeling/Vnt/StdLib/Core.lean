import Mathlib.Algebra.Group.Nat.Defs
import Vnt.Ir.Semantics
import Vnt.Lib.Loop

/-!
# `StdLib.Core` — what the standard library is written in

The hosted operations that `lib/std` uses. Integers are `Int`s of which every operation keeps those that fit in 64 bits
with a sign, and ends with the message of the runtime otherwise. A `while` is a `loop` with a number of turns; that the
turns are not used up is a part of every fact about the library.
-/

namespace Vnt.StdLib

open Lib (Turn loop)

/-- A computation of a hosted program. -/
abbrev Hosted (α : Type) := Except Stop α

/-- `exit(1)` behind a message. -/
def fail {α : Type} (message : String) : Hosted α := .error (.runtimeError message)

/-- `INT64_MIN`. -/
def int64Min : Int := -9223372036854775807 - 1

/-- `INT64_MAX`. -/
def int64Max : Int := 9223372036854775807

/-- A signed integer of 64 bits. -/
def IsInt64 (z : Int) : Prop := int64Min ≤ z ∧ z ≤ int64Max

instance (z : Int) : Decidable (IsInt64 z) := inferInstanceAs (Decidable (_ ∧ _))

/-- The result of an operation, when it fits. -/
def fitting (message : String) (z : Int) : Hosted Int := if IsInt64 z then .ok z else fail message

/-- `vnt_add` on two integers. -/
def vntAdd (x y : Int) : Hosted Int := fitting "signed 64-bit integer overflow in addition." (x + y)

/-- `vnt_sub` on two integers. -/
def vntSub (x y : Int) : Hosted Int := fitting "signed 64-bit integer overflow in subtraction." (x - y)

/-- `vnt_mul` on two integers. -/
def vntMul (x y : Int) : Hosted Int := fitting "signed 64-bit integer overflow in multiplication." (x * y)

/-- `vnt_neg` on an integer. -/
def vntNeg (x : Int) : Hosted Int := fitting "integer overflow in negation." (-x)

/-- `vnt_div` on two integers. -/
def vntDiv (x y : Int) : Hosted Int :=
  if y = 0 then fail "division by zero."
  else if x = int64Min ∧ y = -1 then fail "integer overflow in division."
  else .ok (x.tdiv y)

/-- `vnt_mod` on two integers. -/
def vntMod (x y : Int) : Hosted Int :=
  if y = 0 then fail "modulo by zero."
  else if x = int64Min ∧ y = -1 then fail "integer overflow in modulo."
  else .ok (x.tmod y)

/-- More turns than a counter has values. -/
def allTurns : Nat := 2 ^ 64

/-- A `while` whose body may leave it with a result. -/
def whileLoop {σ ρ : Type} (turns : Nat) (body : σ → Hosted (Turn σ ρ)) (s : σ) : Hosted ρ := loop .outOfClock body turns s

/-! ## What the operations return -/

variable {x y z : Int}

theorem int64_of_toInt (x : Int64) : IsInt64 x.toInt := by
  have hlow := Int64.le_toInt x
  have hhigh := Int64.toInt_lt x
  unfold IsInt64 int64Min int64Max
  omega

/-- A step that returns goes on with its value. -/
theorem ok_bind {α β : Type} (a : α) (f : α → Hosted β) : ((.ok a : Hosted α) >>= f) = f a := rfl

theorem fitting_ok {message : String} (h : IsInt64 z) : fitting message z = .ok z := if_pos h

theorem vntAdd_ok (h : IsInt64 (x + y)) : vntAdd x y = .ok (x + y) := fitting_ok h

theorem vntSub_ok (h : IsInt64 (x - y)) : vntSub x y = .ok (x - y) := fitting_ok h

theorem vntMul_ok (h : IsInt64 (x * y)) : vntMul x y = .ok (x * y) := fitting_ok h

theorem vntNeg_ok (h : IsInt64 (-x)) : vntNeg x = .ok (-x) := fitting_ok h

theorem vntDiv_ok (hy : y ≠ 0) (h : ¬ (x = int64Min ∧ y = -1)) : vntDiv x y = .ok (x.tdiv y) := by
  rw [vntDiv, if_neg hy, if_neg h]

theorem vntMod_ok (hy : y ≠ 0) (h : ¬ (x = int64Min ∧ y = -1)) : vntMod x y = .ok (x.tmod y) := by
  rw [vntMod, if_neg hy, if_neg h]

variable {σ ρ : Type} {body : σ → Hosted (Turn σ ρ)} {turns : Nat} {s : σ}

/-- A loop of the library, by an invariant and a measure. -/
theorem whileLoop_total {Inv : σ → Prop} {Good : ρ → Prop} {measure : σ → Nat}
    (hbody : ∀ s, Inv s → ∃ turn, body s = .ok turn ∧ Lib.Advances Inv Good measure s turn) (hinv : Inv s)
    (hmeasure : measure s < turns) : ∃ r, whileLoop turns body s = .ok r ∧ Good r :=
  Lib.loop_total hbody turns hinv hmeasure

/-- A loop of the library that computes `f`. -/
theorem whileLoop_eq {Inv : σ → Prop} {f : σ → ρ} {measure : σ → Nat}
    (hbody : ∀ s, Inv s → ∃ turn, body s = .ok turn ∧
      Lib.Advances (fun s' => Inv s' ∧ f s' = f s) (fun r => r = f s) measure s turn) (hinv : Inv s)
    (hmeasure : measure s < turns) : whileLoop turns body s = .ok (f s) :=
  Lib.loop_eq hbody hinv hmeasure

end Vnt.StdLib
