import Mathlib.Data.Int.Order.Lemmas
import Vnt.Runtime.BigInt

/-!
# `Vnt.Runtime.BigIntExact`: big integers are integers

A text that is an optional sign and some digits stands for an integer (`Numeral`). Parsing it gives the sign and the
digits of that integer, and the operations on signs and digits are those of the integers.
-/

namespace Vnt.Runtime

open Lib
open Net (Bytes)

/-! ## Texts of integers -/

def digitValues (digits : Bytes) : List Nat := digits.map fun c => c.toNat - 48

/-- The text is an optional sign and one or more digits, and stands for `z`. -/
inductive Numeral : Bytes → Int → Prop
  | unsigned {digits : Bytes} : digits ≠ [] → digits.all isDigit = true → Numeral digits (value (digitValues digits))
  | plus {digits : Bytes} : digits ≠ [] → digits.all isDigit = true →
      Numeral (43 :: digits) (value (digitValues digits))
  | minus {digits : Bytes} : digits ≠ [] → digits.all isDigit = true →
      Numeral (45 :: digits) (-(value (digitValues digits)))

/-- The decimal text of an integer: no plus sign, no leading zero, no negative zero. -/
def decimalText (z : Int) : Bytes :=
  (if z < 0 then [45] else []) ++ (numeral z.natAbs).map fun d => UInt8.ofNat (48 + d)

/-- An integer as sign and digits. -/
def bigInt (z : Int) : VntBigInt := ⟨z.sign, numeral z.natAbs⟩

/-- A sign and digits that stand for `z`. -/
structure Stands (r : Int × List Nat) (z : Int) : Prop where
  sign : r.1 = z.sign
  digits : AllDigits r.2
  nonempty : r.2 ≠ []
  value : value r.2 = z.natAbs

variable {a b : VntBigInt} {x y z : Int}

theorem numeral_ne_nil (n : Nat) : numeral n ≠ [] := by
  unfold numeral
  split
  · exact List.cons_ne_nil _ _
  · rename_i hn
    rw [ne_eq, List.reverse_eq_nil_iff, Nat.digits_eq_nil_iff_eq_zero]
    exact hn

theorem numeral_value (n : Nat) : value (numeral n) = n := by
  unfold numeral
  split
  · rename_i hn
    rw [hn]
    rfl
  · rw [value, List.reverse_reverse, Nat.ofDigits_digits]

theorem numeral_trimmed (n : Nat) : Trimmed (numeral n) := by
  have htrim := trim_eq_numeral (numeral_ne_nil n) (numeral_digits n)
  rw [numeral_value] at htrim
  rw [← htrim]
  exact trim_trimmed (numeral_ne_nil n)

theorem numeral_eq_zero {n : Nat} : numeral n = [0] ↔ n = 0 := by
  constructor
  · intro h
    rw [← numeral_value n, h]
    rfl
  · rintro rfl
    rfl

@[simp] theorem bigInt_sign (z : Int) : (bigInt z).sign = z.sign := rfl

theorem stands_bigInt (z : Int) : Stands (z.sign, (bigInt z).digits) z :=
  ⟨rfl, numeral_digits _, numeral_ne_nil _, numeral_value _⟩

/-! ## Parsing and formatting -/

theorem digitValues_digits {digits : Bytes} (h : digits.all isDigit = true) : AllDigits (digitValues digits) := by
  intro d hd
  obtain ⟨c, hc, rfl⟩ := List.mem_map.mp hd
  have hdigit : 48 ≤ c ∧ c ≤ 57 := of_decide_eq_true (List.all_eq_true.mp h c hc)
  have hle : c.toNat ≤ 57 := hdigit.2
  omega

/-- The digits of a text after its sign. -/
theorem parseDigits_ok {digits : Bytes} (hne : digits ≠ []) (h : digits.all isDigit = true) (sign : Int) :
    (⟨if trim (digitValues digits) = [0] then 0 else sign, trim (digitValues digits)⟩ : VntBigInt) =
      ⟨if value (digitValues digits) = 0 then 0 else sign, numeral (value (digitValues digits))⟩ := by
  have hmap : digitValues digits ≠ [] := fun hnil => hne (List.map_eq_nil_iff.mp hnil)
  rw [trim_eq_numeral hmap (digitValues_digits h)]
  simp only [numeral_eq_zero]

theorem sign_natCast (n : Nat) : (if n = 0 then 0 else 1 : Int) = Int.sign n := by
  cases n with
  | zero => rfl
  | succ n => rfl

theorem sign_neg_natCast (n : Nat) : (if n = 0 then 0 else -1 : Int) = Int.sign (-n) := by
  cases n with
  | zero => rfl
  | succ n => rfl

theorem splitSign_digits {digits : Bytes} (h : digits.all isDigit = true) : splitSign digits = (1, digits) := by
  unfold splitSign
  split
  · exact absurd (List.all_eq_true.mp h 45 List.mem_cons_self) (by decide)
  · exact absurd (List.all_eq_true.mp h 43 List.mem_cons_self) (by decide)
  · rfl

/-- **A numeral is parsed to its integer.** -/
theorem vntBigintParse_ok {text : CString} (h : Numeral text.bytes z) : vntBigintParse text = .ok (bigInt z) := by
  obtain ⟨bytes, hbytes⟩ : ∃ bytes, text.bytes = bytes := ⟨_, rfl⟩
  unfold vntBigintParse
  rw [hbytes] at h ⊢
  cases h with
  | unsigned hne hall =>
      rw [splitSign_digits hall]
      refine (if_neg ?_).trans (congrArg Except.ok ((parseDigits_ok hne hall 1).trans ?_))
      · rw [hall]
        rintro (h | h)
        · exact hne h
        · cases h
      · rw [bigInt, sign_natCast, Int.natAbs_natCast]
  | plus hne hall =>
      refine (if_neg ?_).trans (congrArg Except.ok ((parseDigits_ok hne hall 1).trans ?_))
      · rintro (h | h)
        · exact hne h
        · exact absurd (hall.symm.trans h) (by decide)
      · rw [bigInt, sign_natCast, Int.natAbs_natCast]
  | minus hne hall =>
      refine (if_neg ?_).trans (congrArg Except.ok ((parseDigits_ok hne hall (-1)).trans ?_))
      · rintro (h | h)
        · exact hne h
        · exact absurd (hall.symm.trans h) (by decide)
      · rw [bigInt, sign_neg_natCast, Int.natAbs_neg, Int.natAbs_natCast]

/-- **What stands for an integer is formatted as its text.** -/
theorem vntBigintFormat_ok {r : Int × List Nat} (h : Stands r z) (hsize : r.2.length < 2 ^ 63) :
    vntBigintFormat r.1 r.2 = .ok (decimalText z) := by
  have hmax : Net.sizeMax = 2 ^ 64 - 1 := rfl
  have htrim : trim r.2 = numeral z.natAbs := by rw [trim_eq_numeral h.nonempty h.digits, h.value]
  have hlen := trim_length_le r.2
  have hminus : (r.1 < 0 ∧ ¬numeral z.natAbs = [0]) ↔ z < 0 := by
    rw [h.sign, numeral_eq_zero, Int.natAbs_eq_zero, Int.sign_neg_iff]
    constructor
    · rintro ⟨hneg, -⟩
      exact hneg
    · intro hneg
      exact ⟨hneg, by omega⟩
  unfold vntBigintFormat
  simp only
  rw [htrim] at hlen ⊢
  simp only [hminus]
  rw [if_neg (by split <;> omega), decimalText]
  by_cases hneg : z < 0
  · rw [if_pos hneg, if_pos hneg]
    rfl
  · rw [if_neg hneg, if_neg hneg]
    rfl

/-! ## Comparing -/

theorem memcmp_value : ∀ {k l : List Nat}, k.length = l.length → AllDigits k → AllDigits l →
    memcmp k l = ((value k : Int) - value l).sign
  | [], [], _, _, _ => rfl
  | c :: k, d :: l, hlen, hk, hl => by
      have hlen' : k.length = l.length := Nat.succ.inj hlen
      have hkLt := value_lt hk.tail
      have hlLt := value_lt hl.tail
      rw [hlen'] at hkLt
      rw [memcmp, value_cons, value_cons, hlen']
      by_cases hlt : c < d
      · have hplace : (c + 1) * 10 ^ l.length ≤ d * 10 ^ l.length := Nat.mul_le_mul_right _ hlt
        rw [Nat.add_mul, Nat.one_mul] at hplace
        rw [if_pos hlt, Int.sign_eq_neg_one_of_neg (by omega)]
      · rw [if_neg hlt]
        by_cases hgt : d < c
        · have hplace : (d + 1) * 10 ^ l.length ≤ c * 10 ^ l.length := Nat.mul_le_mul_right _ hgt
          rw [Nat.add_mul, Nat.one_mul] at hplace
          rw [if_pos hgt, Int.sign_eq_one_of_pos (by omega)]
        · have heq : c = d := by omega
          rw [if_neg hgt, memcmp_value hlen' hk.tail hl.tail, heq]
          congr 1
          omega

/-- **Magnitudes compare as the numbers.** -/
theorem vntBigintMagcmp_ok {m n : Nat} (ha : a.digits = numeral m) (hb : b.digits = numeral n) :
    vntBigintMagcmp a b = ((m : Int) - n).sign := by
  have hm := numeral_value m
  have hn := numeral_value n
  unfold vntBigintMagcmp VntBigInt.length
  rw [ha, hb]
  by_cases hlen : (numeral m).length = (numeral n).length
  · rw [if_neg (not_not.mpr hlen), memcmp_value hlen (numeral_digits m) (numeral_digits n), hm, hn]
  · rw [if_pos hlen]
    by_cases hlt : (numeral m).length < (numeral n).length
    · have hless := (numeral_trimmed n).value_lt_of_length (numeral_digits m) (numeral_ne_nil m) hlt
      rw [hm, hn] at hless
      rw [if_pos hlt, Int.sign_eq_neg_one_of_neg (by omega)]
    · have hmore := (numeral_trimmed m).value_lt_of_length (numeral_digits n) (numeral_ne_nil n) (by omega)
      rw [hm, hn] at hmore
      rw [if_neg hlt, Int.sign_eq_one_of_pos (by omega)]

theorem sign_clamp (z : Int) : (if z.sign < 0 then -1 else if z.sign > 0 then 1 else 0 : Int) = z.sign := by
  rcases Int.sign_trichotomy z with h | h | h
  · rw [h]
    rfl
  · rw [h]
    rfl
  · rw [h]
    rfl

/-- **Comparing is comparing integers.** -/
theorem bigintCompare_ok (x y : Int) : bigintCompare (bigInt x) (bigInt y) = (x - y).sign := by
  have hmag := @vntBigintMagcmp_ok (bigInt x) (bigInt y) x.natAbs y.natAbs rfl rfl
  have hcmp : (if x.sign = y.sign then
      if x.sign = 0 then 0 else vntBigintMagcmp (bigInt x) (bigInt y) * (if x.sign < 0 then -1 else 1)
      else if x.sign < y.sign then -1 else 1 : Int) = (x - y).sign := by
    rw [hmag]
    rcases lt_trichotomy x 0 with hx | rfl | hx
    · rw [Int.sign_eq_neg_one_of_neg hx]
      rcases lt_trichotomy y 0 with hy | rfl | hy
      · -- of two negative numbers the one with the greater magnitude is the smaller
        rw [Int.sign_eq_neg_one_of_neg hy, if_pos rfl, if_neg (by decide), if_pos (by decide),
          show (x.natAbs : Int) - y.natAbs = -(x - y) by omega, Int.sign_neg]
        omega
      · rw [Int.sub_zero, Int.sign_eq_neg_one_of_neg hx]
        rfl
      · rw [Int.sign_eq_one_of_pos hy, Int.sign_eq_neg_one_of_neg (show x - y < 0 by omega)]
        rfl
    · rw [Int.zero_sub, Int.sign_neg]
      rcases Int.sign_trichotomy y with h | h | h
      · rw [h]
        rfl
      · rw [h]
        rfl
      · rw [h]
        rfl
    · rw [Int.sign_eq_one_of_pos hx]
      rcases lt_trichotomy y 0 with hy | rfl | hy
      · rw [Int.sign_eq_neg_one_of_neg hy, Int.sign_eq_one_of_pos (show 0 < x - y by omega)]
        rfl
      · rw [Int.sub_zero, Int.sign_eq_one_of_pos hx]
        rfl
      · rw [Int.sign_eq_one_of_pos hy, if_pos rfl, if_neg (by decide), if_neg (by decide), Int.mul_one,
          show (x.natAbs : Int) - y.natAbs = x - y by omega]
  unfold bigintCompare
  rw [bigInt_sign, bigInt_sign]
  simp only
  rw [hcmp, sign_clamp]

/-! ## Sums and products -/

theorem sign_add_same (hx : x.sign ≠ 0) (h : x.sign = y.sign) :
    (x + y).sign = x.sign ∧ (x + y).natAbs = x.natAbs + y.natAbs := by
  rcases lt_trichotomy x 0 with hneg | rfl | hpos
  · rw [Int.sign_eq_neg_one_of_neg hneg] at h ⊢
    have hy := Int.sign_eq_neg_one_iff_neg.mp h.symm
    exact ⟨Int.sign_eq_neg_one_of_neg (by omega), by omega⟩
  · exact absurd rfl hx
  · rw [Int.sign_eq_one_of_pos hpos] at h ⊢
    have hy := Int.sign_eq_one_iff_pos.mp h.symm
    exact ⟨Int.sign_eq_one_of_pos (by omega), by omega⟩

theorem sign_add_opposite (hx : x.sign ≠ 0) (h : x.sign ≠ y.sign) (hle : y.natAbs < x.natAbs) :
    (x + y).sign = x.sign ∧ (x + y).natAbs = x.natAbs - y.natAbs := by
  rcases lt_trichotomy x 0 with hneg | rfl | hpos
  · rw [Int.sign_eq_neg_one_of_neg hneg] at h ⊢
    have hy : ¬y < 0 := fun hy => h (Int.sign_eq_neg_one_of_neg hy).symm
    exact ⟨Int.sign_eq_neg_one_of_neg (by omega), by omega⟩
  · exact absurd rfl hx
  · rw [Int.sign_eq_one_of_pos hpos] at h ⊢
    have hy : ¬0 < y := fun hy => h (Int.sign_eq_one_of_pos hy).symm
    exact ⟨Int.sign_eq_one_of_pos (by omega), by omega⟩

/-- A size that leaves every buffer of a result below `SIZE_MAX`. -/
def Fits (n : VntBigInt) : Prop := n.length < 2 ^ 47

theorem numeral_length_le {m n : Nat} (h : m ≤ n) : (numeral m).length ≤ (numeral n).length := by
  by_contra hlt
  have hless := (numeral_trimmed m).value_lt_of_length (numeral_digits n) (numeral_ne_nil n) (by omega)
  rw [numeral_value, numeral_value] at hless
  omega

/-- The greater magnitude gives the sign of a difference. -/
theorem submag_stands (ha : a.digits = numeral x.natAbs) (hb : b.digits = numeral y.natAbs) (hx : x.sign ≠ 0)
    (hsign : x.sign ≠ y.sign) (hlt : y.natAbs < x.natAbs) (hfits : Fits a) :
    ∃ out, vntBigintSubmag a b = .ok out ∧ Stands (x.sign, out) (x + y) ∧ out.length < 2 ^ 63 := by
  unfold Fits at hfits
  have hlen : b.length ≤ a.length := by
    rw [VntBigInt.length, VntBigInt.length, ha, hb]
    exact numeral_length_le (Nat.le_of_lt hlt)
  have hvalueA : value a.digits = x.natAbs := by rw [ha, numeral_value]
  have hvalueB : value b.digits = y.natAbs := by rw [hb, numeral_value]
  obtain ⟨out, hout, hdigits, hne, hvalue, houtLen⟩ := @vntBigintSubmag_ok a b (by rw [ha]; exact numeral_digits _)
    (by rw [hb]; exact numeral_digits _) (by rw [ha]; exact numeral_ne_nil _) hlen
    (by rw [hvalueA, hvalueB]; exact Nat.le_of_lt hlt)
  obtain ⟨hsignSum, habs⟩ := sign_add_opposite hx hsign hlt
  refine ⟨out, hout, ⟨hsignSum.symm, hdigits, hne, ?_⟩, by omega⟩
  rw [habs]
  exact hvalue.trans (by rw [hvalueA, hvalueB])

/-- **Sums**, of `x` and a number with the magnitude of `b` and the sign of `y`. -/
theorem bigintSum_ok (hb : b.digits = numeral y.natAbs) (hx : Fits (bigInt x)) (hfits : Fits b) :
    ∃ r, bigintSum (bigInt x) b y.sign = .ok r ∧ Stands r (x + y) ∧ r.2.length < 2 ^ 63 := by
  have hlenB : b.digits.length < 2 ^ 47 := hfits
  have hlenX : (numeral x.natAbs).length < 2 ^ 47 := hx
  unfold bigintSum
  rw [bigInt_sign]
  by_cases hzero : x.sign = 0
  · refine ⟨(y.sign, b.digits), if_pos hzero, ?_, by show b.digits.length < _; omega⟩
    rw [Int.sign_eq_zero_iff_zero.mp hzero, Int.zero_add, hb]
    exact stands_bigInt y
  rw [if_neg hzero]
  by_cases hzero' : y.sign = 0
  · refine ⟨(x.sign, (bigInt x).digits), if_pos hzero', ?_, by show (numeral x.natAbs).length < _; omega⟩
    rw [Int.sign_eq_zero_iff_zero.mp hzero', Int.add_zero]
    exact stands_bigInt x
  rw [if_neg hzero']
  by_cases hsame : x.sign = y.sign
  · obtain ⟨out, hout, hdigits, hne, hvalue, hlen⟩ := @vntBigintAddmag_ok (bigInt x) b (numeral_digits _)
      (by rw [hb]; exact numeral_digits _) (numeral_ne_nil _) (by unfold Fits at hx hfits; omega)
    obtain ⟨hsign, habs⟩ := sign_add_same hzero hsame
    refine ⟨(x.sign, out), ?_, ⟨hsign.symm, hdigits, hne, ?_⟩, ?_⟩
    · rw [if_pos hsame, hout]
      rfl
    · rw [habs]
      exact hvalue.trans (congrArg₂ _ (numeral_value _) (by rw [hb, numeral_value]))
    · show out.length < _
      unfold Fits at hx hfits
      omega
  rw [if_neg hsame]
  simp only
  rw [@vntBigintMagcmp_ok (bigInt x) b x.natAbs y.natAbs rfl hb]
  rcases lt_trichotomy x.natAbs y.natAbs with hlt | heq | hgt
  · -- `b` is the greater
    obtain ⟨out, hout, hstands, hlen⟩ := submag_stands hb (show (bigInt x).digits = numeral x.natAbs from rfl) hzero'
      (Ne.symm hsame) hlt hfits
    rw [Int.add_comm] at hstands
    refine ⟨(y.sign, out), ?_, hstands, hlen⟩
    rw [Int.sign_eq_neg_one_of_neg (show (x.natAbs : Int) - y.natAbs < 0 by omega), if_neg (by decide),
      if_neg (by decide), hout]
    rfl
  · have hcancel : x + y = 0 := by
      rcases Int.natAbs_eq_natAbs_iff.mp heq with h | h
      · rw [h] at hsame
        exact absurd rfl hsame
      · omega
    rw [heq, Int.sub_self, hcancel]
    exact ⟨(0, [0]), rfl, stands_bigInt 0, (by decide : [0].length < 2 ^ 63)⟩
  · obtain ⟨out, hout, hstands, hlen⟩ := submag_stands (show (bigInt x).digits = numeral x.natAbs from rfl) hb hzero
      hsame hgt hx
    refine ⟨(x.sign, out), ?_, hstands, hlen⟩
    rw [Int.sign_eq_one_of_pos (show 0 < (x.natAbs : Int) - y.natAbs by omega), if_neg (by decide), if_pos (by decide),
      hout]
    rfl

/-- **Products.** -/
theorem bigintProduct_ok (hx : Fits (bigInt x)) (hy : Fits (bigInt y)) :
    ∃ r, bigintProduct (bigInt x) (bigInt y) = .ok r ∧ Stands r (x * y) ∧ r.2.length < 2 ^ 63 := by
  unfold Fits at hx hy
  unfold bigintProduct
  rw [bigInt_sign, bigInt_sign]
  by_cases hzero : x.sign = 0 ∨ y.sign = 0
  · have hproduct : x * y = 0 := by
      rcases hzero with h | h
      · rw [Int.sign_eq_zero_iff_zero.mp h, Int.zero_mul]
      · rw [Int.sign_eq_zero_iff_zero.mp h, Int.mul_zero]
    rw [hproduct]
    exact ⟨(0, [0]), if_pos hzero, ⟨rfl, AllDigits.replicate_zero 1, List.cons_ne_nil _ _, rfl⟩,
      (by decide : [0].length < 2 ^ 63)⟩
  · obtain ⟨out, hout, houtDigits, houtNe, houtValue, houtLen⟩ := @mulDigits_ok (bigInt x) (bigInt y) (numeral_digits _)
      (numeral_digits _) (numeral_ne_nil _) ⟨by omega, by omega⟩
    refine ⟨(x.sign * y.sign, out), ?_, ⟨(Int.sign_mul x y).symm, houtDigits, houtNe, ?_⟩, by show out.length < _; omega⟩
    · rw [if_neg hzero, hout]
      rfl
    · rw [Int.natAbs_mul]
      exact houtValue.trans (congrArg₂ _ (numeral_value _) (numeral_value _))

/-! ## The operations on texts -/

/-- The length of what is parsed. -/
theorem fits_of_numeral {text : CString} (h : Numeral text.bytes z) : Fits (bigInt z) := by
  have hparsed := vntBigintParse_ok h
  have hshort : (splitSign text.bytes).2.length ≤ text.bytes.length := by
    unfold splitSign
    split
    · rename_i heq
      rw [heq, List.length_cons]
      exact Nat.le_succ _
    · rename_i heq
      rw [heq, List.length_cons]
      exact Nat.le_succ _
    · exact Nat.le_refl _
  have hfits := text.fits
  unfold vntBigintParse at hparsed
  simp only at hparsed
  split at hparsed
  · cases hparsed
  · have hdigits := congrArg VntBigInt.digits (Except.ok.inj hparsed)
    have hlen := trim_length_le ((splitSign text.bytes).2.map fun c => c.toNat - 48)
    rw [List.length_map] at hlen
    unfold Fits VntBigInt.length userSpace at *
    rw [← hdigits]
    show (trim _).length < _
    omega

/-- A digit of a text. -/
theorem isDigit_ofNat {d : Nat} (hd : d < 10) : isDigit (UInt8.ofNat (48 + d)) = true ∧ (UInt8.ofNat (48 + d)).toNat = 48 + d := by
  have hnat : (UInt8.ofNat (48 + d)).toNat = 48 + d := UInt8.toNat_ofNat_of_lt' (by show 48 + d < 256; omega)
  refine ⟨?_, hnat⟩
  unfold isDigit
  rw [decide_eq_true_eq, UInt8.le_iff_toNat_le, UInt8.le_iff_toNat_le, hnat]
  show 48 ≤ 48 + d ∧ 48 + d ≤ 57
  omega

/-- A text without plus sign, without leading zero and without negative zero. -/
def Canonical (text : Bytes) : Prop :=
  text = [48] ∨ ∃ first rest, (text = first :: rest ∨ text = 45 :: first :: rest) ∧ isDigit first = true ∧ first ≠ 48 ∧
    rest.all isDigit = true

/-- The digits of a number, as text. -/
structure DigitText (digits : Bytes) (n : Nat) : Prop where
  nonempty : digits ≠ []
  all : digits.all isDigit = true
  value : value (digitValues digits) = n
  leads : digits = [48] ∨ ∃ first rest, digits = first :: rest ∧ first ≠ 48

theorem numeral_text (n : Nat) : DigitText ((numeral n).map fun d => UInt8.ofNat (48 + d)) n := by
  have hsmall := numeral_digits n
  refine ⟨?_, ?_, ?_, ?_⟩
  · rw [ne_eq, List.map_eq_nil_iff]
    exact numeral_ne_nil n
  · rw [List.all_eq_true]
    intro c hc
    obtain ⟨d, hd, rfl⟩ := List.mem_map.mp hc
    exact (isDigit_ofNat (hsmall d hd)).1
  · have hback : ∀ d ∈ numeral n, ((fun c : UInt8 => c.toNat - 48) ∘ fun d => UInt8.ofNat (48 + d)) d = id d := by
      intro d hd
      show (UInt8.ofNat (48 + d)).toNat - 48 = d
      rw [(isDigit_ofNat (hsmall d hd)).2, Nat.add_sub_cancel_left]
    rw [digitValues, List.map_map, List.map_congr_left hback, List.map_id, numeral_value]
  · rcases numeral_trimmed n with hzero | ⟨d, k, hcons, hd⟩
    · rw [hzero]
      exact Or.inl rfl
    · rw [hcons, List.map_cons]
      refine Or.inr ⟨_, _, rfl, fun h48 => hd ?_⟩
      have hnat := (isDigit_ofNat (hsmall d (by rw [hcons]; exact List.mem_cons_self))).2
      rw [h48] at hnat
      change 48 = 48 + d at hnat
      omega

theorem decimalText_canonical (z : Int) : Numeral (decimalText z) z ∧ Canonical (decimalText z) := by
  obtain ⟨hne, hall, hvalue, hleads⟩ := numeral_text z.natAbs
  obtain ⟨digits, hdigits⟩ : ∃ digits : Bytes, ((numeral z.natAbs).map fun d => UInt8.ofNat (48 + d)) = digits := ⟨_, rfl⟩
  unfold decimalText
  rw [hdigits] at hne hall hvalue hleads ⊢
  by_cases hneg : z < 0
  · rw [if_pos hneg]
    have hnumeral := Numeral.minus hne hall
    rw [hvalue, show -(z.natAbs : Int) = z by omega] at hnumeral
    refine ⟨hnumeral, ?_⟩
    rcases hleads with rfl | ⟨first, rest, rfl, hfirst⟩
    · change 0 = z.natAbs at hvalue
      omega
    · rw [List.all_cons, Bool.and_eq_true] at hall
      exact Or.inr ⟨first, rest, Or.inr rfl, hall.1, hfirst, hall.2⟩
  · rw [if_neg hneg]
    have hnumeral := Numeral.unsigned hne hall
    rw [hvalue, show (z.natAbs : Int) = z by omega] at hnumeral
    refine ⟨hnumeral, ?_⟩
    rcases hleads with rfl | ⟨first, rest, rfl, hfirst⟩
    · exact Or.inl rfl
    · rw [List.all_cons, Bool.and_eq_true] at hall
      exact Or.inr ⟨first, rest, Or.inl rfl, hall.1, hfirst, hall.2⟩

/-- The result is the canonical text of `z`; no index was out of range and no cell too wide. -/
def Returns (result : Except BigIntError Bytes) (z : Int) : Prop :=
  ∃ text, result = .ok text ∧ Numeral text z ∧ Canonical text

theorem returns_of_stands {a b : CString} {operation : VntBigInt → VntBigInt → Except BigIntError (Int × List Nat)}
    (ha : Numeral a.bytes x) (hb : Numeral b.bytes y)
    (h : ∃ r, operation (bigInt x) (bigInt y) = .ok r ∧ Stands r z ∧ r.2.length < 2 ^ 63) :
    Returns (vntBigintBinary operation a b) z := by
  obtain ⟨r, hr, hstands, hlen⟩ := h
  refine ⟨decimalText z, ?_, decimalText_canonical z⟩
  rw [vntBigintBinary, vntBigintParse_ok ha, vntBigintParse_ok hb]
  show (operation (bigInt x) (bigInt y) >>= _) = _
  rw [hr]
  exact vntBigintFormat_ok hstands hlen

/-- **Big-integer arithmetic is exact**: for texts of any length the results are the canonical texts of the sum, the
    difference and the product, and comparing gives the sign of the difference. -/
theorem bigint_exact {a b : CString} (ha : Numeral a.bytes x) (hb : Numeral b.bytes y) :
    Returns (vntBigintAdd a b) (x + y) ∧ Returns (vntBigintSub a b) (x - y) ∧ Returns (vntBigintMul a b) (x * y) ∧
      vntBigintCompare a b = .ok (x - y).sign := by
  have hx := fits_of_numeral ha
  have hy := fits_of_numeral hb
  refine ⟨?_, ?_, ?_, ?_⟩
  · exact returns_of_stands ha hb (bigintSum_ok rfl hx hy)
  · have hdigits : (bigInt y).digits = numeral (-y).natAbs := by
      rw [Int.natAbs_neg]
      rfl
    have hsum := bigintSum_ok hdigits hx hy
    rw [Int.sign_neg] at hsum
    exact returns_of_stands ha hb hsum
  · exact returns_of_stands ha hb (bigintProduct_ok hx hy)
  · rw [vntBigintCompare, vntBigintParse_ok ha, vntBigintParse_ok hb]
    exact congrArg Except.ok (bigintCompare_ok x y)

/-- `-12` and `+007`. -/
def minusTwelve : CString := ⟨[45, 49, 50], by decide, by decide⟩

def plusSeven : CString := ⟨[43, 48, 48, 55], by decide, by decide⟩

theorem bigint_exact_twelve_seven : Returns (vntBigintAdd minusTwelve plusSeven) (-12 + 7) ∧
    Returns (vntBigintSub minusTwelve plusSeven) (-12 - 7) ∧ Returns (vntBigintMul minusTwelve plusSeven) (-12 * 7) ∧
      vntBigintCompare minusTwelve plusSeven = .ok (-12 - 7 : Int).sign :=
  bigint_exact (.minus (List.cons_ne_nil _ _) (by decide)) (.plus (List.cons_ne_nil _ _) (by decide))

end Vnt.Runtime
