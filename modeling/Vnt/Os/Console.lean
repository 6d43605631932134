import Vnt.Lib.Digits
import Vnt.Net.Text
import Vnt.Os.Memory

/-!
# `Os.Console` — printing numbers (`os/console.vnt`)

`console_decimal` and `console_hex` divide by powers of the base, the highest first. Arithmetic is that of the freestanding
backend: a result that is no signed 64-bit number traps, division and remainder truncate towards zero. What has been printed
is the state; `console_putc` prints the low byte of its argument.
-/

namespace Vnt.Os

open Lib
open Net (Bytes)

inductive PrintFault where
  /-- `.Lvnt_arithmetic_fault`. -/
  | arithmetic
  /-- A read outside the digits of `"0123456789abcdef"`. -/
  | digitIndex (index : Int)
  | endless
  deriving DecidableEq, Repr

abbrev Console (α : Type) := Prog Bytes PrintFault α

def consoleWord (z : Int) : Console Int := if InWord z then pure z else Prog.fault .arithmetic

/-- What `idivq` is guarded against. -/
def Divides (x y : Int) : Prop := y ≠ 0 ∧ ¬(y = -1 ∧ x = -9223372036854775808)

instance (x y : Int) : Decidable (Divides x y) := inferInstanceAs (Decidable (_ ∧ _))

def consoleDiv (x y : Int) : Console Int := if Divides x y then pure (x.tdiv y) else Prog.fault .arithmetic

def consoleMod (x y : Int) : Console Int := if Divides x y then pure (x.tmod y) else Prog.fault .arithmetic

def consolePutc (value : Int) : Console Unit := Prog.modify fun out => out ++ [UInt8.ofInt value]

def consolePuts (text : Bytes) : Console Unit := Prog.modify fun out => out ++ text

/-! ## `console_decimal` -/

def decimalDigitAt (value divisor : Int) : Console Int :=
  if divisor = 0 then pure (-1)
  else do
    let q ← consoleDiv value divisor
    consoleMod q 10

/-- `while divisor <= value / 10 { … }` -/
def growDivisor : Nat → Int → Int → Console Int
  | 0, _, _ => Prog.fault .endless
  | fuel + 1, value, divisor => do
      let tenth ← consoleDiv value 10
      if divisor ≤ tenth then do
        let divisor ← consoleWord (divisor * 10)
        growDivisor fuel value divisor
      else pure divisor

/-- `while divisor > 0 { … }` -/
def digitLoop : Nat → Int → Int → Console Unit
  | 0, _, _ => Prog.fault .endless
  | fuel + 1, value, divisor =>
      if divisor > 0 then do
        let digit ← decimalDigitAt value divisor
        let c ← consoleWord (48 + digit)
        consolePutc c
        let value ← consoleMod value divisor
        let divisor ← consoleDiv divisor 10
        digitLoop fuel value divisor
      else pure ()

/-- No number has so many digits. -/
def manyTurns : Nat := 64

/-- `console_decimal` once the sign is printed. -/
def printMagnitude (value : Int) : Console Unit := do
  let divisor ← growDivisor manyTurns value 1
  digitLoop manyTurns value divisor
  consolePuts Net.crlf

def consoleDecimal (value : Int) : Console Unit :=
  if value = 0 then do
    consolePutc 48
    consolePuts Net.crlf
  else if value < 0 then do
    consolePutc 45
    let value ← consoleWord (0 - value)
    printMagnitude value
  else printMagnitude value

/-! ## `console_hex` -/

def hexDigits : Bytes := Net.ascii "0123456789abcdef"

/-- `"0123456789abcdef"[digit]` -/
def hexDigit (digit : Int) : Console Int :=
  if 0 ≤ digit then
    match hexDigits[digit.toNat]? with
    | some c => pure c.toNat
    | none => Prog.fault (.digitIndex digit)
  else Prog.fault (.digitIndex digit)

/-- `while count < 16 { … }`, for the turns that are left. -/
def hexLoop : Nat → Int → Int → Console Unit
  | 0, _, _ => pure ()
  | turns + 1, value, divisor => do
      let q ← consoleDiv value divisor
      let digit ← consoleMod q 16
      let c ← hexDigit digit
      consolePutc c
      let value ← consoleMod value divisor
      let divisor ← consoleDiv divisor 16
      hexLoop turns value divisor

def consoleHex (value : Int) : Console Unit := do
  consolePuts (Net.ascii "0x")
  hexLoop 16 value 1152921504606846976
  consolePuts Net.crlf

/-! ## What they should print -/

/-- The canonical decimal numeral of a number. -/
def decimalText (v : Int) : Bytes :=
  (if v < 0 then [45] else []) ++ (numeral v.natAbs).map fun d => UInt8.ofNat (48 + d)

/-- The sixteen hexadecimal digits of a number modulo 2^64. -/
def hexText (v : Int) : Bytes :=
  Net.ascii "0x" ++ (digitsOf 16 16 (v % 18446744073709551616).toNat).map fun d => hexDigits.getD d 0

def PrintsDecimal (v : Int) : Prop := ∀ out, consoleDecimal v out = .ok ((), out ++ decimalText v ++ Net.crlf)

def PrintsHex (v : Int) : Prop := ∀ out, consoleHex v out = .ok ((), out ++ hexText v ++ Net.crlf)

/-!
## Which numbers are printed right

The loops peel off the digits of a number that is not negative. A negative one has a negative digit, with which
`console_hex` reads outside its digits; `console_decimal` changes the sign first, which the least number does not survive.
-/

variable {out : Bytes} {n m d k fuel turns : Nat}

/-! ## Steps -/

theorem consoleWord_run {z : Int} (h : InWord z) : consoleWord z out = .ok (z, out) := by
  rw [consoleWord, if_pos h]
  rfl

theorem divides_nat (x : Int) (hd : 0 < d) : Divides x d := ⟨by omega, fun h => by omega⟩

theorem consoleDiv_nat (n : Nat) (hd : 0 < d) : consoleDiv n d out = .ok (((n / d : Nat) : Int), out) := by
  rw [consoleDiv, if_pos (divides_nat n hd), Int.ofNat_tdiv]
  rfl

theorem consoleMod_nat (n : Nat) (hd : 0 < d) : consoleMod n d out = .ok (((n % d : Nat) : Int), out) := by
  rw [consoleMod, if_pos (divides_nat n hd), Int.ofNat_tmod]
  rfl

theorem consoleDiv_neg (n : Nat) (hd : 0 < d) : consoleDiv (-n) d out = .ok (-((n / d : Nat) : Int), out) := by
  rw [consoleDiv, if_pos (divides_nat _ hd), Int.neg_tdiv, Int.ofNat_tdiv]
  rfl

theorem consoleMod_neg (n : Nat) (hd : 0 < d) : consoleMod (-n) d out = .ok (-((n % d : Nat) : Int), out) := by
  rw [consoleMod, if_pos (divides_nat _ hd), Int.neg_tmod, Int.ofNat_tmod]
  rfl

theorem consoleDiv_ten (n : Nat) : consoleDiv n 10 out = .ok (((n / 10 : Nat) : Int), out) :=
  consoleDiv_nat n (d := 10) (by decide)

theorem consoleDiv_sixteen (n : Nat) : consoleDiv n 16 out = .ok (((n / 16 : Nat) : Int), out) :=
  consoleDiv_nat n (d := 16) (by decide)

theorem consoleMod_sixteen (n : Nat) : consoleMod n 16 out = .ok (((n % 16 : Nat) : Int), out) :=
  consoleMod_nat n (d := 16) (by decide)

theorem consolePutc_nat (n : Nat) : consolePutc n out = .ok ((), out ++ [UInt8.ofNat n]) := by
  rw [consolePutc, UInt8.ofInt]
  have hbyte : UInt8.ofNat ((n : Int) % 2 ^ 8).toNat = UInt8.ofNat n := by
    rw [← UInt8.toNat_inj, UInt8.toNat_ofNat', UInt8.toNat_ofNat']
    omega
  rw [hbyte]
  rfl

/-! ## `console_decimal` -/

theorem decimalDigitAt_nat (n : Nat) (hd : 0 < d) : decimalDigitAt n d out = .ok (((n / d % 10 : Nat) : Int), out) := by
  rw [decimalDigitAt, if_neg (by omega), Prog.bind_run_ok (consoleDiv_nat n hd)]
  exact consoleMod_nat (n / d) (by decide)

/-- The greatest power of ten that is not above the number. -/
theorem growDivisor_run (hn : n < 2 ^ 63) (fuel : Nat) : ∀ {k : Nat}, 10 ^ k ≤ n → n < 10 ^ (k + fuel) →
    ∃ e, growDivisor fuel n ((10 ^ k : Nat) : Int) out = .ok (((10 ^ e : Nat) : Int), out) ∧ 10 ^ e ≤ n ∧
      n < 10 ^ (e + 1) := by
  induction fuel with
  | zero =>
      intro k hlow hhigh
      exact absurd hhigh (Nat.not_lt.mpr hlow)
  | succ fuel ih =>
      intro k hlow hhigh
      rw [growDivisor, Prog.bind_run_ok (consoleDiv_ten n)]
      have hpow : 10 ^ (k + 1) = 10 ^ k * 10 := Nat.pow_succ 10 k
      by_cases hmore : ((10 ^ k : Nat) : Int) ≤ ((n / 10 : Nat) : Int)
      · have hle : 10 ^ (k + 1) ≤ n := by omega
        have hword : consoleWord (((10 ^ k : Nat) : Int) * 10) out = .ok (((10 ^ (k + 1) : Nat) : Int), out) := by
          have hcast : ((10 ^ k : Nat) : Int) * 10 = ((10 ^ (k + 1) : Nat) : Int) := by
            rw [hpow]
            push_cast
            rfl
          rw [hcast]
          exact consoleWord_run ⟨by omega, by omega⟩
        rw [if_pos hmore, Prog.bind_run_ok hword]
        apply ih hle
        rw [Nat.add_right_comm]
        exact hhigh
      · rw [if_neg hmore]
        exact ⟨k, rfl, hlow, by omega⟩

theorem digitLoop_run (k : Nat) : ∀ {n fuel : Nat} {out : Bytes}, n < 10 ^ (k + 1) → k + 2 ≤ fuel →
    digitLoop fuel n ((10 ^ k : Nat) : Int) out =
      .ok ((), out ++ (digitsOf 10 (k + 1) n).map fun d => UInt8.ofNat (48 + d)) := by
  -- One turn prints the highest digit and goes on with the rest.
  have hturn : ∀ {k n fuel : Nat} {out : Bytes}, digitLoop (fuel + 1) n ((10 ^ k : Nat) : Int) out =
      digitLoop fuel ((n % 10 ^ k : Nat) : Int) ((10 ^ k / 10 : Nat) : Int) (out ++ [UInt8.ofNat (48 + n / 10 ^ k % 10)]) := by
    intro k n fuel out
    have hpos : 0 < 10 ^ k := Nat.pow_pos (by decide)
    have hdigit : n / 10 ^ k % 10 < 10 := Nat.mod_lt _ (by decide)
    have hchar : consoleWord (48 + ((n / 10 ^ k % 10 : Nat) : Int)) out =
        .ok (((48 + n / 10 ^ k % 10 : Nat) : Int), out) := by
      have hcast : (48 : Int) + ((n / 10 ^ k % 10 : Nat) : Int) = ((48 + n / 10 ^ k % 10 : Nat) : Int) := by omega
      rw [hcast]
      exact consoleWord_run ⟨by omega, by omega⟩
    rw [digitLoop, if_pos (by omega), Prog.bind_run_ok (decimalDigitAt_nat n hpos), Prog.bind_run_ok hchar,
      Prog.bind_run_ok (consolePutc_nat _), Prog.bind_run_ok (consoleMod_nat n hpos),
      Prog.bind_run_ok (consoleDiv_ten (10 ^ k))]
  induction k with
  | zero =>
      intro n fuel out hn hfuel
      obtain ⟨fuel, rfl⟩ : ∃ m, fuel = m + 2 := ⟨fuel - 2, by omega⟩
      rw [hturn, digitLoop, if_neg (by decide), digitsOf_succ]
      rfl
  | succ k ih =>
      intro n fuel out hn hfuel
      obtain ⟨fuel, rfl⟩ : ∃ m, fuel = m + 1 := ⟨fuel - 1, by omega⟩
      have hnext : 10 ^ (k + 1) / 10 = 10 ^ k := by
        rw [Nat.pow_succ]
        exact Nat.mul_div_cancel _ (by decide)
      have hrest : n % 10 ^ (k + 1) < 10 ^ (k + 1) := Nat.mod_lt _ (Nat.pow_pos (by decide))
      rw [hturn, hnext, ih hrest (by omega), digitsOf_succ 10 (k + 1) n, List.map_cons, List.append_assoc]
      rfl

theorem printMagnitude_run (hpos : 0 < n) (hn : n < 2 ^ 63) : printMagnitude n out =
    .ok ((), out ++ (numeral n).map (fun d => UInt8.ofNat (48 + d)) ++ Net.crlf) := by
  have hmany : (2 : Nat) ^ 63 ≤ 10 ^ (0 + manyTurns) := by decide
  obtain ⟨e, hgrow, hlow, hhigh⟩ := @growDivisor_run out n hn manyTurns 0 hpos (by omega)
  have hlt : e < manyTurns := by
    apply (Nat.pow_lt_pow_iff_right (show 1 < 10 by decide)).mp
    rw [Nat.zero_add] at hmany
    omega
  have he : e + 2 ≤ manyTurns := by
    by_contra hno
    have hall : e = 63 := by
      unfold manyTurns at hlt hno
      omega
    rw [hall] at hlow
    have hbig : (2 : Nat) ^ 63 ≤ 10 ^ 63 := by decide
    omega
  have hnumeral : numeral n = digitsOf 10 (e + 1) n := by
    rw [numeral, if_neg (Nat.ne_of_gt hpos), digitsOf_eq_digits (by decide) e hlow hhigh]
  have hone : ((10 ^ 0 : Nat) : Int) = 1 := rfl
  rw [hone] at hgrow
  rw [printMagnitude, Prog.bind_run_ok hgrow, Prog.bind_run_ok (digitLoop_run e hhigh he), hnumeral]
  rfl

theorem consoleDecimal_prints {v : Int} (hword : InWord v) (hmin : v ≠ -9223372036854775808) : PrintsDecimal v := by
  intro out
  unfold consoleDecimal decimalText
  unfold InWord at hword
  by_cases hzero : v = 0
  · rw [if_pos hzero, if_neg (by omega), hzero]
    show Except.ok ((), out ++ [48] ++ Net.crlf) = _
    rw [List.nil_append]
    rfl
  rw [if_neg hzero]
  by_cases hneg : v < 0
  · obtain ⟨n, rfl⟩ : ∃ n : Nat, v = -n := ⟨v.natAbs, by omega⟩
    have hminus : consoleWord (0 - -(n : Int)) (out ++ [45]) = .ok ((n : Int), out ++ [45]) := by
      have hcast : (0 : Int) - -(n : Int) = n := by omega
      rw [hcast]
      exact consoleWord_run ⟨by omega, by omega⟩
    have hputc : consolePutc 45 out = .ok ((), out ++ [45]) := rfl
    rw [if_pos hneg, if_pos hneg, Prog.bind_run_ok hputc, Prog.bind_run_ok hminus,
      printMagnitude_run (by omega) (by omega), Int.natAbs_neg, Int.natAbs_natCast]
    simp only [List.append_assoc]
  · obtain ⟨n, rfl⟩ : ∃ n : Nat, v = n := ⟨v.natAbs, by omega⟩
    rw [if_neg hneg, if_neg hneg, printMagnitude_run (by omega) (by omega), Int.natAbs_natCast, List.nil_append]

theorem consoleDecimal_min : consoleDecimal (-9223372036854775808) out = .error .arithmetic := rfl

/-! ## `console_hex` -/

theorem hexDigit_run (h : d < 16) : hexDigit d out = .ok (((hexDigits.getD d 0).toNat : Int), out) := by
  have hlen : hexDigits.length = 16 := by decide
  have hget : hexDigits[d]? = some (hexDigits.getD d 0) := by
    rw [List.getD_eq_getElem?_getD, List.getElem?_eq_getElem (by omega)]
    rfl
  rw [hexDigit, if_pos (by omega), Int.toNat_natCast, hget]
  rfl

theorem hexLoop_run (turns : Nat) : ∀ {n : Nat} {out : Bytes}, n < 16 ^ (turns + 1) →
    hexLoop (turns + 1) n ((16 ^ turns : Nat) : Int) out =
      .ok ((), out ++ (digitsOf 16 (turns + 1) n).map fun d => hexDigits.getD d 0) := by
  have hturn : ∀ {turns k n : Nat} {out : Bytes}, hexLoop (turns + 1) n ((16 ^ k : Nat) : Int) out =
      hexLoop turns ((n % 16 ^ k : Nat) : Int) ((16 ^ k / 16 : Nat) : Int) (out ++ [hexDigits.getD (n / 16 ^ k % 16) 0]) := by
    intro turns k n out
    have hpos : 0 < 16 ^ k := Nat.pow_pos (by decide)
    have hdigit : n / 16 ^ k % 16 < 16 := Nat.mod_lt _ (by decide)
    rw [hexLoop, Prog.bind_run_ok (consoleDiv_nat n hpos), Prog.bind_run_ok (consoleMod_sixteen _),
      Prog.bind_run_ok (hexDigit_run hdigit), Prog.bind_run_ok (consolePutc_nat _),
      Prog.bind_run_ok (consoleMod_nat n hpos), Prog.bind_run_ok (consoleDiv_sixteen (16 ^ k)),
      UInt8.ofNat_toNat]
  induction turns with
  | zero =>
      intro n out hn
      rw [hturn, hexLoop, digitsOf_succ]
      rfl
  | succ turns ih =>
      intro n out hn
      have hnext : 16 ^ (turns + 1) / 16 = 16 ^ turns := by
        rw [Nat.pow_succ]
        exact Nat.mul_div_cancel _ (by decide)
      have hrest : n % 16 ^ (turns + 1) < 16 ^ (turns + 1) := Nat.mod_lt _ (Nat.pow_pos (by decide))
      rw [hturn, hnext, ih hrest, digitsOf_succ 16 (turns + 1) n, List.map_cons, List.append_assoc]
      rfl

theorem consoleHex_prints {v : Int} (hword : InWord v) (hpos : 0 ≤ v) : PrintsHex v := by
  intro out
  unfold InWord at hword
  obtain ⟨n, rfl⟩ : ∃ n : Nat, v = n := ⟨v.natAbs, by omega⟩
  have hmod : ((n : Int) % 18446744073709551616).toNat = n := by omega
  have hstart : consolePuts (Net.ascii "0x") out = .ok ((), out ++ Net.ascii "0x") := rfl
  have hloop := @hexLoop_run 15 n (out ++ Net.ascii "0x") (by omega)
  rw [consoleHex, Prog.bind_run_ok hstart]
  have hdivisor : ((16 ^ 15 : Nat) : Int) = 1152921504606846976 := by norm_num
  rw [hdivisor] at hloop
  rw [Prog.bind_run_ok hloop, hexText, hmod]
  show Except.ok ((), _ ++ Net.crlf) = _
  simp only [List.append_assoc]

/-- A negative number has a negative digit. -/
theorem hexLoop_negative (turns : Nat) : ∀ {n : Nat} {out : Bytes}, 0 < n → n < 16 ^ (turns + 1) →
    ∃ index, hexLoop (turns + 1) (-n) ((16 ^ turns : Nat) : Int) out = .error (.digitIndex index) := by
  -- The first digit that is not 0 is read.
  have hturn : ∀ {turns k n : Nat} {out : Bytes}, n / 16 ^ k < 16 →
      (0 < n / 16 ^ k ∧ hexLoop (turns + 1) (-n) ((16 ^ k : Nat) : Int) out =
        .error (.digitIndex (-((n / 16 ^ k % 16 : Nat) : Int)))) ∨
      (n / 16 ^ k = 0 ∧ hexLoop (turns + 1) (-n) ((16 ^ k : Nat) : Int) out =
        hexLoop turns (-((n % 16 ^ k : Nat) : Int)) ((16 ^ k / 16 : Nat) : Int) (out ++ [hexDigits.getD 0 0])) := by
    intro turns k n out hsmall
    have hpos : 0 < 16 ^ k := Nat.pow_pos (by decide)
    have hdigit : consoleMod (-((n / 16 ^ k : Nat) : Int)) 16 out = .ok (-((n / 16 ^ k % 16 : Nat) : Int), out) :=
      consoleMod_neg _ (d := 16) (by decide)
    rw [hexLoop, Prog.bind_run_ok (consoleDiv_neg n hpos), Prog.bind_run_ok hdigit, Nat.mod_eq_of_lt hsmall]
    rcases Nat.eq_zero_or_pos (n / 16 ^ k) with hzero | hsome
    · refine Or.inr ⟨hzero, ?_⟩
      have hread : hexDigit (-((0 : Nat) : Int)) out = .ok (((hexDigits.getD 0 0).toNat : Int), out) := hexDigit_run (by decide)
      rw [hzero, Prog.bind_run_ok hread, Prog.bind_run_ok (consolePutc_nat _), Prog.bind_run_ok (consoleMod_neg n hpos),
        Prog.bind_run_ok (consoleDiv_sixteen (16 ^ k)), UInt8.ofNat_toNat]
    · refine Or.inl ⟨hsome, ?_⟩
      rw [Prog.bind_run, hexDigit, if_neg (by omega)]
      rfl
  induction turns with
  | zero =>
      intro n out hn hlt
      rw [Nat.zero_add, Nat.pow_one] at hlt
      have hself : n / 16 ^ 0 = n := Nat.div_one n
      rcases @hturn 0 0 n out (by omega) with ⟨-, herror⟩ | ⟨hzero, -⟩
      · exact ⟨_, herror⟩
      · omega
  | succ turns ih =>
      intro n out hn hlt
      have hfirst : n / 16 ^ (turns + 1) < 16 := by
        rw [Nat.div_lt_iff_lt_mul (Nat.pow_pos (by decide)), Nat.mul_comm, ← Nat.pow_succ]
        exact hlt
      rcases @hturn (turns + 1) (turns + 1) n out hfirst with ⟨-, herror⟩ | ⟨hzero, hrun⟩
      · exact ⟨_, herror⟩
      · have hsmall : n < 16 ^ (turns + 1) := by
          rcases Nat.div_eq_zero_iff.mp hzero with hno | hsmall
          · exact absurd hno (Nat.ne_of_gt (Nat.pow_pos (by decide)))
          · exact hsmall
        have hnext : 16 ^ (turns + 1) / 16 = 16 ^ turns := by
          rw [Nat.pow_succ]
          exact Nat.mul_div_cancel _ (by decide)
        rw [hrun, Nat.mod_eq_of_lt hsmall, hnext]
        exact ih hn hsmall

theorem consoleHex_negative {v : Int} (hword : InWord v) (hneg : v < 0) : ¬ PrintsHex v := by
  intro hprints
  unfold InWord at hword
  obtain ⟨n, rfl⟩ : ∃ n : Nat, v = -n := ⟨v.natAbs, by omega⟩
  have hstart : consolePuts (Net.ascii "0x") [] = .ok ((), Net.ascii "0x") := rfl
  obtain ⟨index, herror⟩ := @hexLoop_negative 15 n (Net.ascii "0x") (by omega) (by omega)
  have hdivisor : ((16 ^ 15 : Nat) : Int) = 1152921504606846976 := by norm_num
  rw [hdivisor] at herror
  have hrun := hprints []
  rw [consoleHex, Prog.bind_run_ok hstart, Prog.bind_run, herror] at hrun
  cases hrun

/-- **What is printed right.** Decimal: all but the least number; hexadecimal: all that are not negative. -/
theorem number_printing_exact (v : Int64) : (PrintsDecimal v.toInt ↔ v ≠ Int64.minValue) ∧ (PrintsHex v.toInt ↔ 0 ≤ v.toInt) ∧
    (PrintsDecimal v.toInt ∧ PrintsHex v.toInt ↔ 0 ≤ v.toInt) := by
  have hlow := Int64.le_toInt v
  have hhigh := Int64.toInt_lt v
  have hword : InWord v.toInt := ⟨by omega, by omega⟩
  have hmin : Int64.minValue.toInt = -9223372036854775808 := by decide
  have hdecimal : PrintsDecimal v.toInt ↔ v ≠ Int64.minValue := by
    constructor
    · rintro hprints rfl
      have hrun := hprints []
      rw [hmin, consoleDecimal_min] at hrun
      cases hrun
    · intro hne
      apply consoleDecimal_prints hword
      intro heq
      exact hne (Int64.toInt_inj.mp (heq.trans hmin.symm))
  have hhex : PrintsHex v.toInt ↔ 0 ≤ v.toInt := by
    constructor
    · intro hprints
      by_contra hneg
      exact consoleHex_negative hword (Int.not_le.mp hneg) hprints
    · exact consoleHex_prints hword
  refine ⟨hdecimal, hhex, fun h => hhex.mp h.2, fun hpos => ⟨hdecimal.mpr ?_, hhex.mpr hpos⟩⟩
  rintro rfl
  rw [hmin] at hpos
  exact absurd hpos (by decide)

/-- The shell prints the APIC id of the boot processor, which is -1 while the APIC is off. -/
theorem console_hex_minus_one : consoleHex (-1) [] = .error (.digitIndex (-1)) ∧
    ¬ ∀ v : Int64, PrintsDecimal v.toInt ∧ PrintsHex v.toInt := by
  have hrun : consoleHex (-1) [] = .error (.digitIndex (-1)) := rfl
  refine ⟨hrun, ?_⟩
  intro hall
  have hprints := (hall (-1)).2 []
  have hone : (-1 : Int64).toInt = -1 := by decide
  rw [hone, hrun] at hprints
  cases hprints

end Vnt.Os
