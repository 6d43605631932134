import Mathlib.Data.Nat.Prime.Basic
import Mathlib.Data.Nat.Factorial.Basic
import Vnt.StdLib.Core

/-!
# `StdLib.Number` — integer helpers (`number.vnt`)

The helpers on integers, each with what it computes: every loop ends, and no operation overflows or divides by zero, on
all integers of 64 bits.
-/

namespace Vnt.StdLib

open Lib (Turn)

def isDivisibleBy (value divisor : Int) : Hosted Bool :=
  if divisor = 0 then pure false
  else if value = -9223372036854775807 - 1 ∧ divisor = -1 then pure true
  else do
    let remainder ← vntMod value divisor
    pure (remainder = 0)

/-- `while value % 2 == 0 { … }` and what comes after it. -/
def isPowerOfTwoTurn (value : Int) : Hosted (Turn Int Bool) := do
  let remainder ← vntMod value 2
  if remainder = 0 then do
    let value ← vntDiv value 2
    pure (.next value)
  else pure (.done (value = 1))

def isPowerOfTwo (value : Int) : Hosted Bool :=
  if value < 1 then pure false else whileLoop allTurns isPowerOfTwoTurn value

/-- `while i <= value { … }` and what comes after it. -/
def factorialTurn (value : Int) : Int × Int → Hosted (Turn (Int × Int) Int)
  | (result, i) =>
      if i ≤ value then do
        let room ← vntDiv 9223372036854775807 i
        if result > room then pure (.done (-1))
        else do
          let result ← vntMul result i
          let i ← vntAdd i 1
          pure (.next (result, i))
      else pure (.done result)

def factorial (value : Int) : Hosted Int :=
  if value < 0 then pure (-1) else whileLoop allTurns (factorialTurn value) (1, 2)

/-- `if left > 0 { left = -left }` -/
def nonPositive (x : Int) : Hosted Int := if x > 0 then vntNeg x else pure x

/-- `while right != 0 { … }` and what comes after it. -/
def gcdTurn : Int × Int → Hosted (Turn (Int × Int) Int)
  | (left, right) =>
      if right ≠ 0 then
        if left = -9223372036854775807 - 1 ∧ right = -1 then pure (.done 1)
        else do
          let remainder ← vntMod left right
          pure (.next (right, remainder))
      else if left = -9223372036854775807 - 1 then pure (.done (-1))
      else do
        let result ← vntNeg left
        pure (.done result)

def gcd (left right : Int) : Hosted Int := do
  let left ← nonPositive left
  let right ← nonPositive right
  whileLoop allTurns gcdTurn (left, right)

/-- `while divisor <= value / divisor { … }` and what comes after it. -/
def isPrimeTurn (value divisor : Int) : Hosted (Turn Int Bool) := do
  let quotient ← vntDiv value divisor
  if divisor ≤ quotient then do
    let remainder ← vntMod value divisor
    if remainder = 0 then pure (.done false)
    else do
      let divisor ← vntAdd divisor 2
      pure (.next divisor)
  else pure (.done true)

def isPrime (value : Int) : Hosted Bool :=
  if value < 2 then pure false
  else if value = 2 then pure true
  else do
    let remainder ← vntMod value 2
    if remainder = 0 then pure false else whileLoop allTurns (isPrimeTurn value) 3

/-! ## Divisibility -/

variable {x y value divisor : Int}

theorem isDivisibleBy_exact (value divisor : Int) :
    ∃ b, isDivisibleBy value divisor = .ok b ∧ (b = true ↔ divisor ≠ 0 ∧ divisor ∣ value) := by
  unfold isDivisibleBy
  by_cases hzero : divisor = 0
  · rw [if_pos hzero]
    exact ⟨false, rfl, by simp [hzero]⟩
  rw [if_neg hzero]
  by_cases hleast : value = -9223372036854775807 - 1 ∧ divisor = -1
  · rw [if_pos hleast]
    refine ⟨true, rfl, iff_of_true rfl ⟨hzero, ?_⟩⟩
    rw [hleast.2]
    exact ⟨-value, by omega⟩
  · rw [if_neg hleast, vntMod_ok hzero hleast]
    refine ⟨decide (value.tmod divisor = 0), rfl, ?_⟩
    rw [decide_eq_true_iff, ← Int.dvd_iff_tmod_eq_zero]
    exact ⟨fun h => ⟨hzero, h⟩, fun h => h.2⟩

/-! ## Powers of two -/

theorem pow_two_half {n : Nat} (heven : n % 2 = 0) : (∃ k, n = 2 ^ k) ↔ ∃ k, n / 2 = 2 ^ k := by
  constructor
  · rintro ⟨k, hk⟩
    cases k with
    | zero => omega
    | succ k => exact ⟨k, by rw [hk, Nat.pow_succ]; omega⟩
  · rintro ⟨k, hk⟩
    exact ⟨k + 1, by rw [Nat.pow_succ]; omega⟩

theorem pow_two_odd {n : Nat} (hodd : n % 2 ≠ 0) : (∃ k, n = 2 ^ k) ↔ n = 1 := by
  constructor
  · rintro ⟨k, hk⟩
    cases k with
    | zero => exact hk
    | succ k =>
        rw [Nat.pow_succ] at hk
        omega
  · rintro rfl
    exact ⟨0, rfl⟩

theorem isPowerOfTwo_exact (hvalue : IsInt64 value) :
    ∃ b, isPowerOfTwo value = .ok b ∧ (b = true ↔ ∃ k : Nat, value = 2 ^ k) := by
  unfold isPowerOfTwo
  by_cases hsmall : value < 1
  · rw [if_pos hsmall]
    refine ⟨false, rfl, iff_of_false Bool.false_ne_true ?_⟩
    rintro ⟨k, hk⟩
    have hpos : (0 : Int) < 2 ^ k := Int.pow_pos (by decide)
    omega
  rw [if_neg hsmall]
  obtain ⟨n, rfl⟩ := Int.eq_ofNat_of_zero_le (show 0 ≤ value by omega)
  have hcast : (∃ k : Nat, (n : Int) = 2 ^ k) ↔ ∃ k, n = 2 ^ k := by
    constructor
    · rintro ⟨k, hk⟩
      exact ⟨k, by exact_mod_cast hk⟩
    · rintro ⟨k, hk⟩
      exact ⟨k, by exact_mod_cast hk⟩
  rw [hcast]
  -- The powers of two among the numbers that are left do not change.
  apply @whileLoop_total Int Bool _ allTurns _ (fun x => 1 ≤ x ∧ x ≤ n ∧ ((∃ k, x.toNat = 2 ^ k) ↔ ∃ k, n = 2 ^ k)) _ (fun x => x.toNat)
  · rintro x ⟨hpos, hle, hiff⟩
    have htmod : x.tmod 2 = x % 2 := Int.tmod_eq_emod_of_nonneg (by omega)
    have htdiv : x.tdiv 2 = x / 2 := Int.tdiv_eq_ediv_of_nonneg (by omega)
    rw [isPowerOfTwoTurn, vntMod_ok (by decide) (by omega), htmod]
    by_cases heven : x % 2 = 0
    · have hhalf : (x / 2).toNat = x.toNat / 2 := by omega
      refine ⟨.next (x / 2), ?_, ⟨by omega, by omega, ?_⟩, ?_⟩
      · show (if x % 2 = 0 then _ else _) = _
        rw [if_pos heven, vntDiv_ok (by decide) (by omega), htdiv]
        rfl
      · rw [hhalf, ← pow_two_half (by omega)]
        exact hiff
      · show (x / 2).toNat < x.toNat
        omega
    · refine ⟨.done (decide (x = 1)), ?_, ?_⟩
      · show (if x % 2 = 0 then _ else _) = _
        rw [if_neg heven]
        rfl
      · show decide (x = 1) = true ↔ _
        rw [← hiff, pow_two_odd (by omega), decide_eq_true_iff]
        omega
  · exact ⟨by omega, Int.le_refl _, Iff.rfl⟩
  · have hmax := hvalue.2
    unfold int64Max at hmax
    show (n : Int).toNat < allTurns
    unfold allTurns
    omega

/-! ## Factorials -/

/-- One turn, when the product fits and when it does not. -/
theorem factorialTurn_multiply {result i : Int} (hle : i ≤ value) (hi : 2 ≤ i) (hpos : 0 < result)
    (hfits : result * i ≤ int64Max) (hnext : i + 1 ≤ int64Max) :
    factorialTurn value (result, i) = .ok (.next (result * i, i + 1)) := by
  have hroom : vntDiv 9223372036854775807 i = .ok (9223372036854775807 / i) := by
    rw [vntDiv_ok (by omega) (by omega), Int.tdiv_eq_ediv_of_nonneg (by decide)]
  have hsmall : ¬ result > 9223372036854775807 / i := by
    rw [gt_iff_lt, Int.not_lt, Int.le_ediv_iff_mul_le (by omega)]
    exact hfits
  have hmul : vntMul result i = .ok (result * i) := vntMul_ok ⟨by
    have hproduct := Int.mul_pos hpos (show 0 < i by omega)
    unfold int64Min
    omega, hfits⟩
  have hadd : vntAdd i 1 = .ok (i + 1) := vntAdd_ok ⟨by unfold int64Min; omega, hnext⟩
  rw [factorialTurn, if_pos hle, hroom]
  show (if result > 9223372036854775807 / i then _ else _) = _
  rw [if_neg hsmall, hmul]
  show (vntAdd i 1 >>= _) = _
  rw [hadd]
  rfl

theorem factorialTurn_overflow {result i : Int} (hle : i ≤ value) (hi : 2 ≤ i) (hlarge : int64Max < result * i) :
    factorialTurn value (result, i) = .ok (.done (-1)) := by
  have hroom : vntDiv 9223372036854775807 i = .ok (9223372036854775807 / i) := by
    rw [vntDiv_ok (by omega) (by omega), Int.tdiv_eq_ediv_of_nonneg (by decide)]
  have hlarge' : result > 9223372036854775807 / i := by
    rw [gt_iff_lt, ← Int.not_le, Int.le_ediv_iff_mul_le (by omega)]
    unfold int64Max at hlarge
    omega
  rw [factorialTurn, if_pos hle, hroom]
  show (if result > 9223372036854775807 / i then _ else _) = _
  rw [if_pos hlarge']
  rfl

theorem factorial_exact (hvalue : IsInt64 value) : ∃ r, factorial value = .ok r ∧
    r = if value < 0 ∨ int64Max < (value.toNat.factorial : Int) then -1 else (value.toNat.factorial : Int) := by
  unfold factorial
  by_cases hneg : value < 0
  · rw [if_pos hneg, if_pos (Or.inl hneg)]
    exact ⟨-1, rfl, rfl⟩
  rw [if_neg hneg]
  obtain ⟨n, rfl⟩ := Int.eq_ofNat_of_zero_le (show 0 ≤ value by omega)
  have hmax := hvalue.2
  -- `result` is the factorial of the number before `i`, which is not greater than `value` unless that is 0.
  refine @whileLoop_total (Int × Int) Int _ allTurns _ (fun s => ∃ k : Nat, s = (((k + 1).factorial : Int), (k : Int) + 2) ∧
    ((k + 1).factorial : Int) ≤ int64Max ∧ (k = 0 ∨ k + 1 ≤ n)) _ (fun s => (n + 1 - s.2).toNat) ?_ ?_ ?_
  · rintro _ ⟨k, rfl, hfits, hk⟩
    have hself : k + 1 ≤ (k + 1).factorial := Nat.self_le_factorial (k + 1)
    have hsucc : ((k + 2).factorial : Int) = (k + 1).factorial * ((k : Int) + 2) := by
      rw [Nat.factorial_succ (k + 1), Int.natCast_mul, Int.mul_comm]
      rfl
    by_cases hle : ((k : Int) + 2) ≤ n
    · by_cases hlarge : int64Max < (k + 1).factorial * ((k : Int) + 2)
      · refine ⟨_, factorialTurn_overflow hle (by omega) hlarge, ?_⟩
        have hgrows : (k + 2).factorial ≤ n.factorial := Nat.factorial_le (by omega)
        show -1 = if _ then _ else _
        rw [Int.toNat_natCast, if_pos (Or.inr (by omega))]
      · have hnext : (k : Int) + 2 + 1 ≤ int64Max := by
          cases k with
          | zero => decide
          | succ k =>
              have htwice : 2 * (((k + 1 : Nat) : Int) + 2) ≤ (k + 1 + 1).factorial * (((k + 1 : Nat) : Int) + 2) :=
                Int.mul_le_mul_of_nonneg_right (by omega) (by omega)
              omega
        refine ⟨_, factorialTurn_multiply hle (by omega) (by omega) (by omega) hnext, ⟨k + 1, ?_, ?_, ?_⟩, ?_⟩
        · rw [hsucc]
          rfl
        · rw [hsucc]
          omega
        · right
          omega
        · show ((n : Int) + 1 - (k + 2 + 1)).toNat < ((n : Int) + 1 - (k + 2)).toNat
          omega
    · refine ⟨.done ((k + 1).factorial : Int), ?_, ?_⟩
      · rw [factorialTurn, if_neg hle]
        rfl
      · -- 0 and 1 have the factorial of 1.
        have hsame : n.factorial = (k + 1).factorial := by
          rcases hk with rfl | hk
          · have hsmall : n = 0 ∨ n = 1 := by omega
            rcases hsmall with rfl | rfl <;> rfl
          · rw [show n = k + 1 by omega]
        show _ = if _ then _ else _
        rw [Int.toNat_natCast, hsame, if_neg (by omega)]
  · exact ⟨0, rfl, by decide, Or.inl rfl⟩
  · show ((n : Int) + 1 - 2).toNat < allTurns
    unfold int64Max at hmax
    unfold allTurns
    omega

/-! ## Greatest common divisors -/

theorem nonPositive_ok (hx : IsInt64 x) : ∃ y, nonPositive x = .ok y ∧ y ≤ 0 ∧ y.natAbs = x.natAbs ∧ IsInt64 y := by
  unfold IsInt64 int64Min int64Max at hx
  unfold nonPositive
  by_cases hpos : x > 0
  · have hneg : IsInt64 (-x) := by
      unfold IsInt64 int64Min int64Max
      omega
    rw [if_pos hpos, vntNeg_ok hneg]
    exact ⟨-x, rfl, by omega, Int.natAbs_neg x, hneg⟩
  · rw [if_neg hpos]
    exact ⟨x, rfl, by omega, rfl, hx⟩

/-- A step of the algorithm on numbers that are not positive. -/
theorem gcdTurn_step {left right : Int} (hleft : left ≤ 0) (hright : right < 0)
    (hleast : ¬ (left = -9223372036854775807 - 1 ∧ right = -1)) : ∃ remainder, gcdTurn (left, right) = .ok (.next (right, remainder)) ∧
      remainder ≤ 0 ∧ remainder.natAbs = left.natAbs % right.natAbs := by
  refine ⟨left.tmod right, ?_, ?_, Int.natAbs_tmod left right⟩
  · rw [gcdTurn, if_pos (by omega), if_neg hleast, vntMod_ok (by omega) hleast]
    rfl
  · have hnonneg := Int.tmod_nonneg right (show 0 ≤ -left by omega)
    rw [Int.neg_tmod] at hnonneg
    omega

theorem gcd_exact (hx : IsInt64 x) (hy : IsInt64 y) : ∃ r, gcd x y = .ok r ∧
    r = if Nat.gcd x.natAbs y.natAbs = 2 ^ 63 then -1 else (Nat.gcd x.natAbs y.natAbs : Int) := by
  obtain ⟨left, hleft, hleft0, hleftabs, hleft64⟩ := nonPositive_ok hx
  obtain ⟨right, hright, hright0, hrightabs, hright64⟩ := nonPositive_ok hy
  have hrun : gcd x y = whileLoop allTurns gcdTurn (left, right) := by
    rw [gcd, hleft]
    show (nonPositive y >>= _) = _
    rw [hright]
    rfl
  rw [hrun, ← hleftabs, ← hrightabs]
  refine @whileLoop_total (Int × Int) Int gcdTurn allTurns _ (fun s => (s.1 ≤ 0 ∧ s.2 ≤ 0) ∧ (s.1.natAbs ≤ 2 ^ 63 ∧ s.2.natAbs ≤ 2 ^ 63) ∧
    Nat.gcd s.1.natAbs s.2.natAbs = Nat.gcd left.natAbs right.natAbs) _ (fun s => s.2.natAbs) ?_ ?_ ?_
  · rintro ⟨left', right'⟩ ⟨⟨hleft', hright'⟩, ⟨hlarge, hlarge'⟩, hgcd⟩
    simp only at hleft' hright' hlarge hlarge' hgcd
    rw [← hgcd]
    by_cases hzero : right' = 0
    · have habs : Nat.gcd left'.natAbs right'.natAbs = left'.natAbs := by
        rw [hzero]
        exact Nat.gcd_zero_right _
      rw [habs]
      by_cases hleast : left' = -9223372036854775807 - 1
      · refine ⟨.done (-1), ?_, ?_⟩
        · rw [gcdTurn, if_neg (not_not.mpr hzero), if_pos hleast]
          rfl
        · show -1 = if _ then _ else _
          rw [if_pos (by omega)]
      · have hneg : vntNeg left' = .ok (-left') := vntNeg_ok (by unfold IsInt64 int64Min int64Max; omega)
        refine ⟨.done (-left'), ?_, ?_⟩
        · rw [gcdTurn, if_neg (not_not.mpr hzero), if_neg hleast, hneg]
          rfl
        · show -left' = if _ then _ else _
          rw [if_neg (by omega)]
          omega
    · by_cases hleast : left' = -9223372036854775807 - 1 ∧ right' = -1
      · -- The remainder of the least number and -1 would trap.
        refine ⟨.done 1, ?_, ?_⟩
        · rw [gcdTurn, if_pos hzero, if_pos hleast]
          rfl
        · rw [hleast.1, hleast.2]
          rfl
      · obtain ⟨remainder, hturn, hneg, habs⟩ := gcdTurn_step hleft' (by omega) hleast
        have hless : left'.natAbs % right'.natAbs < right'.natAbs := Nat.mod_lt _ (by omega)
        refine ⟨_, hturn, ⟨⟨hright', hneg⟩, ⟨hlarge', ?_⟩, ?_⟩, ?_⟩
        · show remainder.natAbs ≤ _
          omega
        · show Nat.gcd right'.natAbs remainder.natAbs = _
          rw [habs, Nat.gcd_comm, ← Nat.gcd_rec, Nat.gcd_comm]
        · show remainder.natAbs < right'.natAbs
          omega
  · unfold IsInt64 int64Min int64Max at hleft64 hright64
    refine ⟨⟨hleft0, hright0⟩, ⟨?_, ?_⟩, rfl⟩
    · show left.natAbs ≤ _
      omega
    · show right.natAbs ≤ _
      omega
  · unfold IsInt64 int64Min int64Max at hright64
    show right.natAbs < allTurns
    unfold allTurns
    omega

/-! ## Primes -/

/-- `divisor <= value / divisor` says that the square is not greater. -/
theorem le_tdiv_iff {n d : Nat} (hd : 0 < d) : (d : Int) ≤ (n : Int).tdiv d ↔ d * d ≤ n := by
  have hquotient : (n : Int).tdiv d = ((n / d : Nat) : Int) := Int.tdiv_eq_ediv_of_nonneg (Int.natCast_nonneg n)
  rw [hquotient, Int.ofNat_le, Nat.le_div_iff_mul_le hd]

/-- One turn on an odd number of 64 bits without divisors below an odd `d`. -/
theorem isPrimeTurn_run {n d : Nat} (hd : 3 ≤ d) (hn : (n : Int) ≤ int64Max) : isPrimeTurn n d = .ok (if d * d ≤ n then
    if d ∣ n then .done false else .next ((d + 2 : Nat) : Int) else .done true) := by
  have hquotient : vntDiv n d = .ok ((n : Int).tdiv d) := vntDiv_ok (by omega) (by omega)
  rw [isPrimeTurn, hquotient]
  show (if (d : Int) ≤ (n : Int).tdiv d then _ else _) = _
  by_cases hsquare : d * d ≤ n
  · have hremainder : vntMod n d = .ok ((n : Int).tmod d) := vntMod_ok (by omega) (by omega)
    have hdvd : (n : Int).tmod d = 0 ↔ d ∣ n := by
      rw [← Int.dvd_iff_tmod_eq_zero, Int.natCast_dvd_natCast]
    have htriple : 3 * d ≤ d * d := Nat.mul_le_mul_right d hd
    have hadd : vntAdd d 2 = .ok ((d : Int) + 2) := vntAdd_ok (by unfold IsInt64 int64Min; omega)
    rw [if_pos ((le_tdiv_iff (by omega)).mpr hsquare), if_pos hsquare, hremainder]
    show (if (n : Int).tmod d = 0 then _ else _) = _
    by_cases hdivides : d ∣ n
    · rw [if_pos (hdvd.mpr hdivides), if_pos hdivides]
      rfl
    · rw [if_neg (mt hdvd.mp hdivides), if_neg hdivides, hadd]
      rfl
  · rw [if_neg (mt (le_tdiv_iff (by omega)).mp hsquare), if_neg hsquare]
    rfl

/-- A number is prime if none of its divisors but 1 has a square up to it. -/
theorem prime_of_no_divisor {n d : Nat} (hn : 2 ≤ n) (hsquare : n < d * d) (hnone : ∀ m, 2 ≤ m → m < d → ¬ m ∣ n) :
    n.Prime := by
  rw [Nat.prime_def_le_sqrt]
  refine ⟨hn, fun m hm hsqrt => hnone m hm ?_⟩
  have hroot : m * m ≤ n := Nat.le_sqrt.mp hsqrt
  exact Nat.mul_self_lt_mul_self_iff.mp (Nat.lt_of_le_of_lt hroot hsquare)

theorem isPrime_exact (hvalue : IsInt64 value) :
    ∃ b, isPrime value = .ok b ∧ (b = true ↔ value.toNat.Prime) := by
  unfold isPrime
  by_cases hsmall : value < 2
  · rw [if_pos hsmall]
    refine ⟨false, rfl, iff_of_false Bool.false_ne_true fun hprime => ?_⟩
    have htwo := hprime.two_le
    omega
  rw [if_neg hsmall]
  by_cases htwo : value = 2
  · rw [if_pos htwo, htwo]
    exact ⟨true, rfl, iff_of_true rfl Nat.prime_two⟩
  rw [if_neg htwo]
  obtain ⟨n, rfl⟩ := Int.eq_ofNat_of_zero_le (show 0 ≤ value by omega)
  have hmod : (n : Int).tmod 2 = ((n % 2 : Nat) : Int) := Int.tmod_eq_emod_of_nonneg (Int.natCast_nonneg n)
  rw [vntMod_ok (by decide) (by omega), hmod, Int.toNat_natCast]
  show ∃ b, (if ((n % 2 : Nat) : Int) = 0 then _ else _) = _ ∧ _
  by_cases heven : ((n % 2 : Nat) : Int) = 0
  · rw [if_pos heven]
    refine ⟨false, rfl, iff_of_false Bool.false_ne_true fun hprime => ?_⟩
    have hdvd : 2 ∣ n := by omega
    have hone := (Nat.prime_dvd_prime_iff_eq Nat.prime_two hprime).mp hdvd
    omega
  rw [if_neg heven]
  -- No number between 1 and the divisor divides.
  refine @whileLoop_total Int Bool (isPrimeTurn n) allTurns _ (fun s => ∃ d : Nat, s = d ∧ d % 2 = 1 ∧ 3 ≤ d ∧
    ∀ m, 2 ≤ m → m < d → ¬ m ∣ n) _ (fun s => (n + 2 - s).toNat) ?_ ?_ ?_
  · rintro _ ⟨d, rfl, hodd, hd, hnone⟩
    refine ⟨_, isPrimeTurn_run hd hvalue.2, ?_⟩
    by_cases hsquare : d * d ≤ n
    · have htriple : 3 * d ≤ d * d := Nat.mul_le_mul_right d hd
      rw [if_pos hsquare]
      by_cases hdivides : d ∣ n
      · rw [if_pos hdivides]
        refine iff_of_false Bool.false_ne_true fun hprime => ?_
        rcases (Nat.dvd_prime hprime).mp hdivides with hone | hself
        · omega
        · omega
      · rw [if_neg hdivides]
        refine ⟨⟨d + 2, rfl, by omega, by omega, ?_⟩, ?_⟩
        · intro m hm hlt hdvd
          by_cases hbelow : m < d
          · exact hnone m hm hbelow hdvd
          · have hcases : m = d ∨ m = d + 1 := by omega
            rcases hcases with rfl | rfl
            · exact hdivides hdvd
            · -- An even divisor of an odd number.
              have hhalf : 2 ∣ d + 1 := by omega
              have heven' := hhalf.trans hdvd
              omega
        · show ((n : Int) + 2 - ((d + 2 : Nat) : Int)).toNat < ((n : Int) + 2 - d).toNat
          omega
    · rw [if_neg hsquare]
      exact iff_of_true rfl (prime_of_no_divisor (by omega) (by omega) hnone)
  · refine ⟨3, rfl, rfl, Nat.le_refl 3, ?_⟩
    intro m hm hlt hdvd
    obtain rfl : m = 2 := by omega
    omega
  · have hmax := hvalue.2
    unfold int64Max at hmax
    show ((n : Int) + 2 - 3).toNat < allTurns
    unfold allTurns
    omega

/-! ## All of them -/

/-- On integers of 64 bits every helper returns, and what it returns is exact. -/
theorem integer_helpers_exact (a b : Int64) :
    (∃ r, gcd a.toInt b.toInt = .ok r ∧ r = if Nat.gcd a.toInt.natAbs b.toInt.natAbs = 2 ^ 63 then -1
      else (Nat.gcd a.toInt.natAbs b.toInt.natAbs : Int)) ∧
    (∃ r, factorial a.toInt = .ok r ∧ r = if a.toInt < 0 ∨ int64Max < (a.toInt.toNat.factorial : Int) then -1
      else (a.toInt.toNat.factorial : Int)) ∧
    (∃ p, isPrime a.toInt = .ok p ∧ (p = true ↔ a.toInt.toNat.Prime)) ∧
    (∃ p, isPowerOfTwo a.toInt = .ok p ∧ (p = true ↔ ∃ k : Nat, a.toInt = 2 ^ k)) ∧
    (∃ p, isDivisibleBy a.toInt b.toInt = .ok p ∧ (p = true ↔ b.toInt ≠ 0 ∧ b.toInt ∣ a.toInt)) := by
  have ha := int64_of_toInt a
  have hb := int64_of_toInt b
  exact ⟨gcd_exact ha hb, factorial_exact ha, isPrime_exact ha, isPowerOfTwo_exact ha, isDivisibleBy_exact a.toInt b.toInt⟩

end Vnt.StdLib
