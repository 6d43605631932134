import Vnt.Lib.Digits
import Vnt.Lib.Prog
import Vnt.Net.Request

/-!
# `Vnt.Runtime.BigInt`: decimal big integers (`native_runtime.c`)

Signed integers of any length, kept as their decimal digits. A digit buffer holds the values of its digits: the text is
read with `c - '0'` when it is parsed and written with `'0' + d` when it is formatted. Every access of the digit loops
names its index; an index outside its buffer, and an accumulator cell that is no single digit, end the computation with
a fault of their own, so that a result is the proof that there was none.
-/

namespace Vnt.Runtime

open Lib (value trim AllDigits Trimmed)
open Net (Bytes sizeMax)

/-- The bytes of user space in a 64-bit process. -/
def userSpace : Nat := 2 ^ 47

/-- A string in the memory of a process. -/
structure CString where
  bytes : Bytes
  noNul : 0 ∉ bytes
  fits : bytes.length < userSpace

inductive BigIntError where
  /-- `vnt_bigint_fail`. -/
  | notDecimal
  | sizeOverflow
  | outOfRange
  | wideCell
  deriving DecidableEq, Repr

/-- `VntBigInt`. -/
structure VntBigInt where
  sign : Int
  digits : List Nat
  deriving DecidableEq, Repr

def VntBigInt.length (n : VntBigInt) : Nat := n.digits.length

/-- A read of a digit buffer. -/
def readDigit (buffer : List Nat) (i : Nat) : Except BigIntError Nat :=
  match buffer[i]? with
  | some d => .ok d
  | none => .error .outOfRange

/-- A write to a digit buffer. -/
def writeDigit (buffer : List Nat) (i d : Nat) : Except BigIntError (List Nat) :=
  if i < buffer.length then .ok (buffer.set i d) else .error .outOfRange

/-- A write to the accumulator of the product. -/
def writeCell (buffer : List Nat) (i d : Nat) : Except BigIntError (List Nat) :=
  if d < 10 then writeDigit buffer i d else .error .wideCell

def isDigit (c : UInt8) : Bool := 48 ≤ c ∧ c ≤ 57

/-- `if(*text=='-'||*text=='+'){if(*text=='-')n.sign=-1;text++;}` -/
def splitSign : Bytes → Int × Bytes
  | 45 :: rest => (-1, rest)
  | 43 :: rest => (1, rest)
  | text => (1, text)

/-- `vnt_bigint_parse`. -/
def vntBigintParse (text : CString) : Except BigIntError VntBigInt :=
  let sign := (splitSign text.bytes).1
  let begin_ := (splitSign text.bytes).2
  if begin_ = [] ∨ begin_.all isDigit = false then .error .notDecimal
  else
    let digits := trim (begin_.map fun c => c.toNat - 48)
    .ok ⟨if digits = [0] then 0 else sign, digits⟩

/-- `memcmp` on buffers of one size. -/
def memcmp : List Nat → List Nat → Int
  | c :: a, d :: b => if c < d then -1 else if d < c then 1 else memcmp a b
  | _, _ => 0

/-- `vnt_bigint_magcmp`. -/
def vntBigintMagcmp (a b : VntBigInt) : Int :=
  if a.length ≠ b.length then if a.length < b.length then -1 else 1
  else memcmp a.digits b.digits

/-- `vnt_bigint_format`. -/
def vntBigintFormat (sign : Int) (digits : List Nat) : Except BigIntError Bytes :=
  let digits := trim digits
  let zero := digits = [0]
  let minus := if sign < 0 ∧ ¬zero then 1 else 0
  if digits.length > sizeMax - minus - 1 then .error .sizeOverflow
  else .ok (List.replicate minus 45 ++ digits.map fun d => UInt8.ofNat (48 + d))

/-- The digit at place `k` from the right, and zero beyond the last: `k < n->length ? n->digits[n->length-1-k]-'0' : 0`. -/
def placeDigit (n : VntBigInt) (k : Nat) : Except BigIntError Nat :=
  if k < n.length then readDigit n.digits (n.length - 1 - k) else .ok 0

/-- The loop of `vnt_bigint_addmag`, from place `k` on, `count` turns. -/
def addLoop (a b : VntBigInt) (n : Nat) : Nat → Nat → Nat → List Nat → Except BigIntError (List Nat × Nat)
  | 0, _, carry, out => .ok (out, carry)
  | count + 1, k, carry, out => do
      let da ← placeDigit a k
      let db ← placeDigit b k
      let sum := da + db + carry
      let out ← writeDigit out (n - 1 - k) (sum % 10)
      addLoop a b n count (k + 1) (sum / 10) out

/-- `vnt_bigint_addmag`. -/
def vntBigintAddmag (a b : VntBigInt) : Except BigIntError (List Nat) := do
  let largest := if a.length > b.length then a.length else b.length
  if largest > sizeMax - 2 then .error .sizeOverflow
  else do
    let n := largest + 1
    let (out, carry) ← addLoop a b n (n - 1) 0 0 (List.replicate n 0)
    let out ← writeDigit out 0 carry
    .ok (out.drop (if carry ≠ 0 then 0 else 1))

/-- The digit `v` of one place of a difference, and the borrow from the next. -/
def subDigit (da db borrow : Nat) : Nat × Nat :=
  let v : Int := da - db - borrow
  if v < 0 then ((v + 10).toNat, 1) else (v.toNat, 0)

/-- The loop of `vnt_bigint_submag`. -/
def subLoop (large small : VntBigInt) : Nat → Nat → Nat → List Nat → Except BigIntError (List Nat)
  | 0, _, _, out => .ok out
  | count + 1, k, borrow, out => do
      let da ← readDigit large.digits (large.length - 1 - k)
      let db ← placeDigit small k
      let out ← writeDigit out (large.length - 1 - k) (subDigit da db borrow).1
      subLoop large small count (k + 1) (subDigit da db borrow).2 out

/-- `vnt_bigint_submag`. -/
def vntBigintSubmag (large small : VntBigInt) : Except BigIntError (List Nat) := do
  let out ← subLoop large small large.length 0 0 (List.replicate large.length 0)
  .ok (trim out)

/-- The inner loop of the product: the digits of `b` from `j` down, against the digit `da` of row `i`. -/
def mulRow (b : VntBigInt) (i da : Nat) : Nat → Nat → List Nat → Except BigIntError (List Nat × Nat)
  | 0, carry, acc => .ok (acc, carry)
  | j + 1, carry, acc => do
      let pos := i + (j + 1) - 1
      let cell ← readDigit acc pos
      let db ← readDigit b.digits j
      let sum := cell + da * db + carry
      let acc ← writeCell acc pos (sum % 10)
      mulRow b i da j (sum / 10) acc

/-- The outer loop, from row `i` down. -/
def mulRows (a b : VntBigInt) : Nat → List Nat → Except BigIntError (List Nat)
  | 0, acc => .ok acc
  | i + 1, acc => do
      let da ← readDigit a.digits i
      let (acc, carry) ← mulRow b (i + 1) da b.length 0 acc
      let cell ← readDigit acc i
      let acc ← writeCell acc i (cell + carry)
      mulRows a b i acc

/-- The product of `operation == 2`, for operands that are not zero; an `int` has four bytes. -/
def mulDigits (a b : VntBigInt) : Except BigIntError (List Nat) := do
  if a.length > sizeMax - b.length then .error .sizeOverflow
  else
    let length := a.length + b.length
    if length > sizeMax / 4 - 1 then .error .sizeOverflow
    else do
      let acc ← mulRows a b a.length (List.replicate (length + 1) 0)
      .ok (acc.take length)

/-- What `vnt_bigint_binary` returns when `operation == 3`. -/
def bigintCompare (a b : VntBigInt) : Int :=
  let cmp :=
    if a.sign = b.sign then
      if a.sign = 0 then 0 else vntBigintMagcmp a b * (if a.sign < 0 then -1 else 1)
    else if a.sign < b.sign then -1 else 1
  if cmp < 0 then -1 else if cmp > 0 then 1 else 0

/-- The sign and the digits of a sum, `bsign` standing for the sign of `b`: the last branch of `vnt_bigint_binary`. -/
def bigintSum (a b : VntBigInt) (bsign : Int) : Except BigIntError (Int × List Nat) := do
  if a.sign = 0 then .ok (bsign, b.digits)
  else if bsign = 0 then .ok (a.sign, a.digits)
  else if a.sign = bsign then do
    let digits ← vntBigintAddmag a b
    .ok (a.sign, digits)
  else
    let cmp := vntBigintMagcmp a b
    if cmp = 0 then .ok (0, [0])
    else if cmp > 0 then do
      let digits ← vntBigintSubmag a b
      .ok (a.sign, digits)
    else do
      let digits ← vntBigintSubmag b a
      .ok (bsign, digits)

/-- `operation == 2`. -/
def bigintProduct (a b : VntBigInt) : Except BigIntError (Int × List Nat) := do
  if a.sign = 0 ∨ b.sign = 0 then .ok (0, [0])
  else do
    let digits ← mulDigits a b
    .ok (a.sign * b.sign, digits)

/-- `vnt_bigint_binary` with an operation that returns a text. -/
def vntBigintBinary (operation : VntBigInt → VntBigInt → Except BigIntError (Int × List Nat)) (a b : CString) :
    Except BigIntError Bytes := do
  let a ← vntBigintParse a
  let b ← vntBigintParse b
  let (sign, digits) ← operation a b
  vntBigintFormat sign digits

def vntBigintAdd (a b : CString) : Except BigIntError Bytes := vntBigintBinary (fun a b => bigintSum a b b.sign) a b

def vntBigintSub (a b : CString) : Except BigIntError Bytes := vntBigintBinary (fun a b => bigintSum a b (-b.sign)) a b

def vntBigintMul (a b : CString) : Except BigIntError Bytes := vntBigintBinary bigintProduct a b

def vntBigintCompare (a b : CString) : Except BigIntError Int := do
  let a ← vntBigintParse a
  let b ← vntBigintParse b
  .ok (bigintCompare a b)

/-!
## What the digit loops compute

Each loop is read as an equation between the value of the places it has filled and the places of its operands it has
read, with the carry or the borrow at the next place. One lemma a loop says what its turns keep.
-/

open Lib

variable {a b large small : VntBigInt} {n k count carry borrow i j da : Nat} {out acc : List Nat}

/-- The value of the last `k` digits. -/
def VntBigInt.low (n : VntBigInt) (k : Nat) : Nat := value (n.digits.drop (n.length - k))

theorem low_zero (n : VntBigInt) : n.low 0 = 0 := by
  rw [VntBigInt.low, Nat.sub_zero, VntBigInt.length, List.drop_length, value_nil]

theorem low_all (h : a.length ≤ k) : a.low k = value a.digits := by
  rw [VntBigInt.low, Nat.sub_eq_zero_of_le h, List.drop_zero]

theorem readDigit_ok {buffer : List Nat} (h : i < buffer.length) : ∃ d, buffer[i]? = some d ∧ readDigit buffer i = .ok d := by
  refine ⟨buffer[i], List.getElem?_eq_getElem h, ?_⟩
  rw [readDigit, List.getElem?_eq_getElem h]

/-- The digit at a place completes the places below it. -/
theorem placeDigit_ok (h : AllDigits a.digits) (k : Nat) :
    ∃ d, placeDigit a k = .ok d ∧ d < 10 ∧ a.low (k + 1) = d * 10 ^ k + a.low k := by
  unfold placeDigit
  by_cases hk : k < a.length
  · rw [if_pos hk]
    have hk' : k < a.digits.length := hk
    obtain ⟨d, hd, hread⟩ := @readDigit_ok (a.length - 1 - k) a.digits (show a.length - 1 - k < a.length by omega)
    refine ⟨d, hread, h.getElem? hd, ?_⟩
    have hplace : a.digits.length - 1 - (a.length - 1 - k) = k := by
      show a.digits.length - 1 - (a.digits.length - 1 - k) = k
      omega
    have hdrop := value_drop hd
    rw [hplace] at hdrop
    rw [VntBigInt.low, VntBigInt.low, show a.length - (k + 1) = a.length - 1 - k by omega, hdrop,
      show a.length - 1 - k + 1 = a.length - k by omega]
  · rw [if_neg hk]
    refine ⟨0, rfl, by decide, ?_⟩
    rw [low_all (by omega), low_all (by omega), Nat.zero_mul, Nat.zero_add]

/-- A digit written in front of the filled places. -/
theorem value_drop_set {d : Nat} (hi : i < out.length) :
    value ((out.set i d).drop i) = d * 10 ^ (out.length - 1 - i) + value (out.drop (i + 1)) := by
  have hset : (out.set i d)[i]? = some d := List.getElem?_set_self hi
  rw [value_drop hset, List.length_set, List.drop_set_of_lt (Nat.lt_succ_self i)]

theorem writeDigit_ok {d : Nat} (hi : i < out.length) : writeDigit out i d = .ok (out.set i d) := if_pos hi

theorem split_carry (sum w : Nat) : sum % 10 * w + sum / 10 * (w * 10) = sum * w := by
  calc sum % 10 * w + sum / 10 * (w * 10) = (sum % 10 + 10 * (sum / 10)) * w := by ring
    _ = sum * w := by rw [Nat.mod_add_div]

/-! ## Addition -/

theorem addLoop_ok (ha : AllDigits a.digits) (hb : AllDigits b.digits) (hout : AllDigits out) (hlen : out.length = n)
    (hroom : k + count < n) (hcarry : carry ≤ 1)
    (hsum : value (out.drop (n - k)) + carry * 10 ^ k = a.low k + b.low k) :
    ∃ out' carry', addLoop a b n count k carry out = .ok (out', carry') ∧ AllDigits out' ∧ out'.length = n ∧ carry' ≤ 1 ∧
      value (out'.drop (n - (k + count))) + carry' * 10 ^ (k + count) = a.low (k + count) + b.low (k + count) := by
  induction count generalizing k carry out with
  | zero => exact ⟨out, carry, rfl, hout, hlen, hcarry, hsum⟩
  | succ count ih =>
      obtain ⟨da, hda, hdaLt, hlowA⟩ := placeDigit_ok ha k
      obtain ⟨db, hdb, hdbLt, hlowB⟩ := placeDigit_ok hb k
      obtain ⟨sum, hsumEq⟩ : ∃ sum, da + db + carry = sum := ⟨_, rfl⟩
      have hindex : n - 1 - k < out.length := by omega
      have hfilled := @value_drop_set (n - 1 - k) out (sum % 10) hindex
      rw [hlen, show n - 1 - (n - 1 - k) = k by omega, show n - 1 - k + 1 = n - k by omega] at hfilled
      have hnext : value ((out.set (n - 1 - k) (sum % 10)).drop (n - (k + 1))) + sum / 10 * 10 ^ (k + 1) =
          a.low (k + 1) + b.low (k + 1) := by
        have hcarried := split_carry sum (10 ^ k)
        have hexpand : sum * 10 ^ k = da * 10 ^ k + db * 10 ^ k + carry * 10 ^ k := by
          rw [← hsumEq, Nat.add_mul, Nat.add_mul]
        rw [show n - (k + 1) = n - 1 - k by omega, hfilled, hlowA, hlowB, Nat.pow_succ]
        omega
      obtain ⟨out', carry', hrun, hrest⟩ := ih (hout.set (Nat.mod_lt _ (by decide)) _) (by rw [List.length_set, hlen])
        (by omega) (by omega) hnext
      refine ⟨out', carry', ?_, ?_⟩
      · rw [addLoop, hda, hdb]
        show (writeDigit out (n - 1 - k) ((da + db + carry) % 10) >>= _) = _
        rw [hsumEq, writeDigit_ok hindex]
        exact hrun
      · rw [show k + (count + 1) = k + 1 + count by omega]
        exact hrest

/-- **The sum of two magnitudes.** -/
theorem vntBigintAddmag_ok (ha : AllDigits a.digits) (hb : AllDigits b.digits) (hne : a.digits ≠ [])
    (hsize : a.length < 2 ^ 62 ∧ b.length < 2 ^ 62) :
    ∃ out, vntBigintAddmag a b = .ok out ∧ AllDigits out ∧ out ≠ [] ∧ value out = value a.digits + value b.digits ∧
      out.length ≤ a.length + b.length + 1 := by
  obtain ⟨largest, hlargest⟩ : ∃ largest, (if a.length > b.length then a.length else b.length) = largest := ⟨_, rfl⟩
  have hge : a.length ≤ largest ∧ b.length ≤ largest ∧ largest ≤ a.length + b.length ∧ largest < 2 ^ 62 := by
    rw [← hlargest]
    split
    · omega
    · omega
  have hpos : 0 < a.length := List.length_pos_iff.mpr hne
  have hstart : value ((List.replicate (largest + 1) 0).drop (largest + 1 - 0)) + 0 * 10 ^ 0 = a.low 0 + b.low 0 := by
    rw [low_zero, low_zero, Nat.sub_zero, List.drop_replicate, Nat.sub_self, List.replicate_zero, value_nil, Nat.zero_mul]
  obtain ⟨out, carry, hrun, hdigits, hlen, hcarry, hvalue⟩ := @addLoop_ok a b (largest + 1) 0 largest 0 _ ha hb
    (AllDigits.replicate_zero _) List.length_replicate (by omega) (Nat.zero_le 1) hstart
  rw [Nat.zero_add, low_all hge.1, low_all hge.2.1, Nat.add_sub_cancel_left] at hvalue
  have hwrite : writeDigit out 0 carry = .ok (out.set 0 carry) := writeDigit_ok (by omega)
  have hdropped : (out.set 0 carry).drop 1 = out.drop 1 := List.drop_set_of_lt Nat.one_pos
  refine ⟨(out.set 0 carry).drop (if carry ≠ 0 then 0 else 1), ?_, ?_, ?_, ?_, ?_⟩
  · have hfits : ¬(largest > Net.sizeMax - 2) := by
      have hmax : Net.sizeMax = 2 ^ 64 - 1 := rfl
      omega
    rw [vntBigintAddmag]
    show (if _ > _ then _ else _) = _
    rw [hlargest, if_neg hfits]
    show (addLoop a b (largest + 1) largest 0 0 _ >>= _) = _
    rw [hrun]
    show (writeDigit out 0 carry >>= _) = _
    rw [hwrite]
    rfl
  · exact (hdigits.set (by omega) 0).drop _
  · intro hnil
    have hlenNil := congrArg List.length hnil
    rw [List.length_drop, List.length_set, hlen, List.length_nil] at hlenNil
    split at hlenNil
    · omega
    · omega
  · by_cases hzero : carry = 0
    · rw [if_neg (not_not.mpr hzero), hdropped, ← hvalue, hzero, Nat.zero_mul, Nat.add_zero]
    · have hfilled := @value_drop_set 0 out carry (by omega)
      rw [hlen, List.drop_zero, Nat.zero_add, show largest + 1 - 1 - 0 = largest by omega] at hfilled
      rw [if_pos hzero, List.drop_zero, hfilled, ← hvalue, Nat.add_comm]
  · rw [List.length_drop, List.length_set]
    omega

/-! ## Subtraction -/

/-- The digit that is left, with the borrow for the next place. -/
theorem subDigit_ok {db v borrow' : Nat} (hda : da < 10) (hdb : db < 10) (hborrow : borrow ≤ 1)
    (h : subDigit da db borrow = (v, borrow')) : v < 10 ∧ borrow' ≤ 1 ∧ v + db + borrow = da + borrow' * 10 := by
  unfold subDigit at h
  simp only at h
  split at h
  · cases h
    omega
  · cases h
    omega

theorem subLoop_ok (hl : AllDigits large.digits) (hs : AllDigits small.digits) (hout : AllDigits out)
    (hlen : out.length = large.length) (hroom : k + count ≤ large.length) (hborrow : borrow ≤ 1)
    (hsum : value (out.drop (large.length - k)) + small.low k = large.low k + borrow * 10 ^ k) :
    ∃ out' borrow', subLoop large small count k borrow out = .ok out' ∧ AllDigits out' ∧ out'.length = large.length ∧
      value (out'.drop (large.length - (k + count))) + small.low (k + count) =
        large.low (k + count) + borrow' * 10 ^ (k + count) := by
  induction count generalizing k borrow out with
  | zero => exact ⟨out, borrow, rfl, hout, hlen, hsum⟩
  | succ count ih =>
      obtain ⟨da, hda, hdaLt, hlowL⟩ := placeDigit_ok hl k
      rw [placeDigit, if_pos (by omega)] at hda
      obtain ⟨db, hdb, hdbLt, hlowS⟩ := placeDigit_ok hs k
      obtain ⟨⟨v, borrow'⟩, hv⟩ : ∃ r, subDigit da db borrow = r := ⟨_, rfl⟩
      obtain ⟨hvLt, hborrow', hleft⟩ := subDigit_ok hdaLt hdbLt hborrow hv
      have hindex : large.length - 1 - k < out.length := by omega
      have hfilled := @value_drop_set (large.length - 1 - k) out v hindex
      rw [hlen, show large.length - 1 - (large.length - 1 - k) = k by omega,
        show large.length - 1 - k + 1 = large.length - k by omega] at hfilled
      have hnext : value ((out.set (large.length - 1 - k) v).drop (large.length - (k + 1))) + small.low (k + 1) =
          large.low (k + 1) + borrow' * 10 ^ (k + 1) := by
        have hplace := congrArg (· * 10 ^ k) hleft
        simp only [Nat.add_mul] at hplace
        rw [show large.length - (k + 1) = large.length - 1 - k by omega, hfilled, hlowL, hlowS, Nat.pow_succ,
          Nat.mul_comm (10 ^ k) 10, ← Nat.mul_assoc]
        omega
      obtain ⟨out', last, hrun, hrest⟩ := ih (hout.set hvLt _) (by rw [List.length_set, hlen]) (by omega) hborrow' hnext
      refine ⟨out', last, ?_, ?_⟩
      · rw [subLoop, hda, hdb]
        show (writeDigit out (large.length - 1 - k) (subDigit da db borrow).1 >>= _) = _
        rw [hv, writeDigit_ok hindex]
        exact hrun
      · rw [show k + (count + 1) = k + 1 + count by omega]
        exact hrest

/-- **The difference of two magnitudes.** -/
theorem vntBigintSubmag_ok (hl : AllDigits large.digits) (hs : AllDigits small.digits) (hne : large.digits ≠ [])
    (hlength : small.length ≤ large.length) (hle : value small.digits ≤ value large.digits) :
    ∃ out, vntBigintSubmag large small = .ok out ∧ AllDigits out ∧ out ≠ [] ∧
      value out = value large.digits - value small.digits ∧ out.length ≤ large.length := by
  have hstart : value ((List.replicate large.length 0).drop (large.length - 0)) + small.low 0 =
      large.low 0 + 0 * 10 ^ 0 := by
    rw [low_zero, low_zero, Nat.sub_zero, List.drop_replicate, Nat.sub_self, List.replicate_zero, value_nil, Nat.zero_mul]
  obtain ⟨out, borrow, hrun, hdigits, hlen, hvalue⟩ := @subLoop_ok large small 0 large.length 0 _ hl hs
    (AllDigits.replicate_zero _) List.length_replicate (by omega) (Nat.zero_le 1) hstart
  rw [Nat.zero_add, Nat.sub_self, List.drop_zero, low_all hlength, low_all (Nat.le_refl _)] at hvalue
  have hlt := value_lt hdigits
  rw [hlen] at hlt
  have hborrow : borrow = 0 := by
    by_contra hpos
    have hplace := Nat.le_mul_of_pos_left (10 ^ large.length) (Nat.pos_of_ne_zero hpos)
    omega
  have hpos : 0 < large.length := List.length_pos_iff.mpr hne
  have hout : out ≠ [] := List.ne_nil_of_length_pos (by omega)
  refine ⟨trim out, ?_, trim_digits hdigits, ?_, ?_, ?_⟩
  · rw [vntBigintSubmag, hrun]
    rfl
  · intro hnil
    have htrimmed := trim_trimmed hout
    rw [hnil] at htrimmed
    rcases htrimmed with h | ⟨d, k, h, -⟩
    · cases h
    · cases h
  · rw [trim_value]
    rw [hborrow, Nat.zero_mul] at hvalue
    omega
  · rw [← hlen]
    exact trim_length_le out


/-! ## Multiplication -/

theorem writeCell_ok {d : Nat} (hd : d < 10) (hi : i < out.length) : writeCell out i d = .ok (out.set i d) := by
  rw [writeCell, if_pos hd, writeDigit_ok hi]

theorem value_take_succ {l : List Nat} {d : Nat} (h : l[i]? = some d) :
    value (l.take (i + 1)) = value (l.take i) * 10 + d := by
  rw [List.take_add_one, h, Option.toList_some, value_append, value_cons, value_nil]
  simp

/-- A row adds its digit's share of the product, the last carry being still to be stored. Cells in front of the row keep
    their contents. -/
theorem mulRow_ok {last : Nat} (hb : AllDigits b.digits) (hda : da < 10) (hj : j ≤ b.length) (hi : 0 < i)
    (hacc : AllDigits acc) (hlen : acc.length = last + 1) (hroom : i + b.length ≤ last + 1) (hcarry : carry < 10) :
    ∃ acc' carry', mulRow b i da j carry acc = .ok (acc', carry') ∧ AllDigits acc' ∧ acc'.length = last + 1 ∧
      carry' < 10 ∧ (∀ p < i, acc'[p]? = acc[p]?) ∧
      value acc' + carry' * 10 ^ (last + 1 - i) =
        value acc + (da * value (b.digits.take j) + carry) * 10 ^ (last + 1 - i - j) := by
  induction j generalizing carry acc with
  | zero =>
      refine ⟨acc, carry, rfl, hacc, hlen, hcarry, fun p _ => rfl, ?_⟩
      rw [List.take_zero, value_nil, Nat.mul_zero, Nat.zero_add, Nat.sub_zero]
  | succ j ih =>
      obtain ⟨cell, hcell, hread⟩ := @readDigit_ok (i + (j + 1) - 1) acc (by omega)
      obtain ⟨db, hdb, hreadB⟩ := @readDigit_ok j b.digits hj
      obtain ⟨sum, hsum⟩ : ∃ sum, cell + da * db + carry = sum := ⟨_, rfl⟩
      have hcellLt := hacc.getElem? hcell
      have hdbLt := hb.getElem? hdb
      have hproduct : da * db ≤ 9 * 9 := Nat.mul_le_mul (by omega) (by omega)
      have hpos : i + (j + 1) - 1 < acc.length := by omega
      obtain ⟨acc', carry', hrun, hdigits, hlen', hcarry', hframe, hvalue⟩ := @ih (sum / 10)
        (acc.set (i + (j + 1) - 1) (sum % 10)) (by omega) (hacc.set (Nat.mod_lt _ (by decide)) _)
        (by rw [List.length_set, hlen]) (by omega)
      refine ⟨acc', carry', ?_, hdigits, hlen', hcarry', fun p hp => ?_, ?_⟩
      · rw [mulRow]
        show (readDigit acc (i + (j + 1) - 1) >>= _) = _
        rw [hread]
        show (readDigit b.digits j >>= _) = _
        rw [hreadB]
        show (writeCell acc (i + (j + 1) - 1) ((cell + da * db + carry) % 10) >>= _) = _
        rw [hsum, writeCell_ok (Nat.mod_lt _ (by decide)) hpos]
        exact hrun
      · rw [hframe p hp, List.getElem?_set_ne (by omega)]
      · have hstored := value_set hcell (sum % 10)
        obtain ⟨w, hw⟩ : ∃ w, 10 ^ (last + 1 - i - (j + 1)) = w := ⟨_, rfl⟩
        have hplace : acc.length - 1 - (i + (j + 1) - 1) = last + 1 - i - (j + 1) := by omega
        have hnext : 10 ^ (last + 1 - i - j) = w * 10 := by
          rw [← hw, ← Nat.pow_succ]
          congr 1
          omega
        rw [hplace, hw] at hstored
        rw [hnext] at hvalue
        rw [hw, hvalue, value_take_succ hdb]
        have hcarried := split_carry sum w
        have hexpand : sum * w = cell * w + (da * db + carry) * w := by
          rw [← hsum]
          ring
        have hshare : (da * value (b.digits.take j) + sum / 10) * (w * 10) =
            da * value (b.digits.take j) * 10 * w + sum / 10 * (w * 10) := by ring
        have hwhole : (da * (value (b.digits.take j) * 10 + db) + carry) * w =
            da * value (b.digits.take j) * 10 * w + (da * db + carry) * w := by ring
        rw [hshare, hwhole]
        omega

/-- The rows from `i` down add the product of the first `i` digits of `a` with `b`. -/
theorem mulRows_ok {last : Nat} (ha : AllDigits a.digits) (hb : AllDigits b.digits) (hi : i ≤ a.length)
    (hlast : last = a.length + b.length) (hacc : AllDigits acc) (hlen : acc.length = last + 1)
    (hzero : ∀ p < i, acc[p]? = some 0) :
    ∃ acc', mulRows a b i acc = .ok acc' ∧ AllDigits acc' ∧ acc'.length = last + 1 ∧
      value acc' = value acc + value (a.digits.take i) * value b.digits * 10 ^ (a.length + 1 - i) := by
  induction i generalizing acc with
  | zero =>
      refine ⟨acc, rfl, hacc, hlen, ?_⟩
      rw [List.take_zero, value_nil, Nat.zero_mul, Nat.zero_mul, Nat.add_zero]
  | succ i ih =>
      obtain ⟨da, hda, hread⟩ := @readDigit_ok i a.digits hi
      obtain ⟨row, carry, hrow, hdigits, hlenRow, hcarry, hframe, hvalue⟩ := @mulRow_ok b 0 (i + 1) b.length da acc last hb
        (ha.getElem? hda) (Nat.le_refl _) (Nat.succ_pos i) hacc hlen (by omega) (by decide)
      have hcell : row[i]? = some 0 := (hframe i (Nat.lt_succ_self i)).trans (hzero i (Nat.lt_succ_self i))
      have hreadRow : readDigit row i = .ok 0 := by rw [readDigit, hcell]
      have hinside : i < row.length := by omega
      obtain ⟨acc', hrun, hdigits', hlen', hrest⟩ := @ih (row.set i carry) (by omega) (hdigits.set hcarry _)
        (by rw [List.length_set, hlenRow])
        (fun p hp => by rw [List.getElem?_set_ne (by omega), hframe p (by omega), hzero p (by omega)])
      refine ⟨acc', ?_, hdigits', hlen', ?_⟩
      · rw [mulRows, hread]
        show (mulRow b (i + 1) da b.length 0 acc >>= _) = _
        rw [hrow]
        show (readDigit row i >>= _) = _
        rw [hreadRow]
        show (writeCell row i (0 + carry) >>= _) = _
        rw [Nat.zero_add, writeCell_ok hcarry hinside]
        exact hrun
      · -- the carry goes to the cell in front of the row, which was empty
        have hstored := value_set hcell carry
        rw [hlenRow, Nat.add_sub_cancel, Nat.zero_mul, Nat.add_zero] at hstored
        obtain ⟨w, hw⟩ : ∃ w, 10 ^ (a.length + 1 - (i + 1)) = w := ⟨_, rfl⟩
        have hnext : 10 ^ (a.length + 1 - i) = w * 10 := by
          rw [← hw, ← Nat.pow_succ]
          congr 1
          omega
        have hplace : last + 1 - (i + 1) - b.length = a.length + 1 - (i + 1) := by omega
        have hall : b.digits.take b.length = b.digits := List.take_length
        rw [Nat.add_zero, hall, hplace, hw, show last + 1 - (i + 1) = last - i by omega] at hvalue
        rw [hnext] at hrest
        rw [hrest, hstored, hvalue, hw, value_take_succ hda]
        ring

/-- **The product of two magnitudes.** -/
theorem mulDigits_ok (ha : AllDigits a.digits) (hb : AllDigits b.digits) (hne : a.digits ≠ [])
    (hsize : a.length < 2 ^ 60 ∧ b.length < 2 ^ 60) :
    ∃ out, mulDigits a b = .ok out ∧ AllDigits out ∧ out ≠ [] ∧ value out = value a.digits * value b.digits ∧
      out.length = a.length + b.length := by
  have hmax : Net.sizeMax = 2 ^ 64 - 1 := rfl
  obtain ⟨acc, hrun, hdigits, hlen, hvalue⟩ := @mulRows_ok a b a.length (List.replicate (a.length + b.length + 1) 0)
    (a.length + b.length) ha hb (Nat.le_refl _) rfl (AllDigits.replicate_zero _) List.length_replicate
    (fun p hp => by rw [List.getElem?_replicate, if_pos (by omega)])
  have hall : a.digits.take a.length = a.digits := List.take_length
  rw [hall, value_replicate_zero, Nat.zero_add, Nat.add_sub_cancel_left, Nat.pow_one] at hvalue
  obtain ⟨end_, hend, -⟩ := @readDigit_ok (a.length + b.length) acc (by omega)
  have hwhole := value_take_succ hend
  rw [List.take_of_length_le (Nat.le_of_eq hlen), hvalue] at hwhole
  have hendLt := hdigits.getElem? hend
  have hlength : (acc.take (a.length + b.length)).length = a.length + b.length := by
    rw [List.length_take, hlen]
    omega
  have hpos : 0 < a.length := List.length_pos_iff.mpr hne
  refine ⟨acc.take (a.length + b.length), ?_, hdigits.take _, List.ne_nil_of_length_pos (by omega), by omega, hlength⟩
  rw [mulDigits, if_neg (by omega)]
  show (if _ > _ then _ else _) = _
  rw [if_neg (by omega), hrun]
  rfl

end Vnt.Runtime
