import Mathlib.Data.Nat.Digits.Lemmas

/-!
# `Lib.Digits` — a fixed number of digits, the highest first

`digitsOf b k n` are the last `k` digits of `n` in base `b`. A printer that divides by a power of the base takes the first
off (`digitsOf_succ`); the recursion of `Nat.digits` takes the last (`digitsOf_snoc`).
-/

namespace Vnt.Lib

variable {b k n : Nat}

def digitsOf (b k n : Nat) : List Nat := (List.range k).map fun i => n / b ^ (k - 1 - i) % b

/-- The digit at a place of the remainder is the digit at that place. -/
theorem mod_pow_digit (n : Nat) {i : Nat} (hi : i < k) : n % b ^ k / b ^ i % b = n / b ^ i % b := by
  obtain ⟨j, rfl⟩ : ∃ j, k = i + (j + 1) := ⟨k - i - 1, by omega⟩
  have hdvd : b ∣ b ^ (j + 1) := Dvd.intro_left (b ^ j) (Nat.pow_succ b j).symm
  rw [Nat.pow_add, Nat.mod_mul_right_div_self, Nat.mod_mod_of_dvd _ hdvd]

theorem digitsOf_succ (b k n : Nat) : digitsOf b (k + 1) n = n / b ^ k % b :: digitsOf b k (n % b ^ k) := by
  rw [digitsOf, List.range_succ_eq_map, List.map_cons, List.map_map, digitsOf]
  congr 1
  apply List.map_congr_left
  intro i hi
  have hlt := List.mem_range.mp hi
  have hplace : k + 1 - 1 - (i + 1) = k - 1 - i := by omega
  show n / b ^ (k + 1 - 1 - (i + 1)) % b = _
  rw [hplace, mod_pow_digit n (by omega)]

theorem digitsOf_snoc (b k n : Nat) : digitsOf b (k + 1) n = digitsOf b k (n / b) ++ [n % b] := by
  rw [digitsOf, List.range_succ, List.map_append, digitsOf]
  congr 1
  · apply List.map_congr_left
    intro i hi
    have hlt := List.mem_range.mp hi
    have hplace : k + 1 - 1 - i = k - 1 - i + 1 := by omega
    rw [hplace, Nat.pow_succ', Nat.div_div_eq_div_mul]
  · rw [List.map_singleton, Nat.add_sub_cancel, Nat.sub_self, Nat.pow_zero, Nat.div_one]

/-- Without leading zeros they are the digits of the number. -/
theorem digitsOf_eq_digits (hb : 1 < b) (k : Nat) : ∀ {n : Nat}, b ^ k ≤ n → n < b ^ (k + 1) →
    digitsOf b (k + 1) n = (Nat.digits b n).reverse := by
  induction k with
  | zero =>
      intro n hpos hlt
      rw [Nat.pow_zero] at hpos
      rw [Nat.zero_add, Nat.pow_one] at hlt
      rw [Nat.digits_of_lt b n (by omega) hlt, digitsOf_snoc, Nat.mod_eq_of_lt hlt]
      rfl
  | succ k ih =>
      intro n hpos hlt
      have hlow : b ^ k ≤ n / b := by
        rw [Nat.le_div_iff_mul_le (by omega), ← Nat.pow_succ]
        exact hpos
      have hhigh : n / b < b ^ (k + 1) := by
        rw [Nat.div_lt_iff_lt_mul (by omega), ← Nat.pow_succ]
        exact hlt
      have hne : n ≠ 0 := Nat.ne_of_gt (Nat.lt_of_lt_of_le (Nat.pow_pos (by omega)) hpos)
      rw [digitsOf_snoc, ih hlow hhigh, Nat.digits_def' hb (Nat.pos_of_ne_zero hne), List.reverse_cons]

/-- Every digit in base `b * b` is two digits in base `b`. -/
theorem digitsOf_square (b k : Nat) : ∀ n, (digitsOf (b * b) k n).flatMap (fun d => [d / b, d % b]) = digitsOf b (2 * k) n := by
  induction k with
  | zero => exact fun n => rfl
  | succ k ih =>
      intro n
      have htwo : 2 * (k + 1) = 2 * k + 1 + 1 := rfl
      rw [digitsOf_snoc, List.flatMap_append, ih, htwo, digitsOf_snoc b, digitsOf_snoc b, Nat.div_div_eq_div_mul,
        List.append_assoc]
      show _ ++ [n % (b * b) / b, n % (b * b) % b] = _ ++ [n / b % b, n % b]
      rw [Nat.mod_mul_right_div_self, Nat.mod_mul_right_mod]

/-- A hexadecimal digit in ASCII. -/
def lowerHex (d : Nat) : UInt8 := UInt8.ofNat (if d < 10 then 48 + d else 87 + d)

/-!
## Numerals with the most significant digit first

`value l` is the number that the digits `l` stand for. `trim` takes the leading zeros away but for the last digit; what
is left of a numeral is determined by its value (`trim_eq_numeral`).
-/

/-- The number that digits stand for. -/
def value (l : List Nat) : Nat := Nat.ofDigits 10 l.reverse

def AllDigits (l : List Nat) : Prop := ∀ d ∈ l, d < 10

variable {l k : List Nat} {d n i : Nat}

@[simp] theorem value_nil : value [] = 0 := rfl

theorem value_cons (d : Nat) (l : List Nat) : value (d :: l) = d * 10 ^ l.length + value l := by
  rw [value, List.reverse_cons, Nat.ofDigits_append, Nat.ofDigits_singleton, List.length_reverse, Nat.mul_comm,
    Nat.add_comm]
  rfl

theorem value_append (l k : List Nat) : value (l ++ k) = value l * 10 ^ k.length + value k := by
  rw [value, List.reverse_append, Nat.ofDigits_append, List.length_reverse, Nat.mul_comm, Nat.add_comm]
  rfl

theorem value_replicate_zero (n : Nat) : value (List.replicate n 0) = 0 := by
  induction n with
  | zero => rfl
  | succ n ih => rw [List.replicate_succ, value_cons, ih, Nat.zero_mul]

theorem AllDigits.tail (h : AllDigits (d :: l)) : AllDigits l := fun e he => h e (List.mem_cons_of_mem d he)

theorem AllDigits.replicate_zero (n : Nat) : AllDigits (List.replicate n 0) := by
  intro d hd
  rw [List.eq_of_mem_replicate hd]
  exact Nat.zero_lt_succ 9

theorem AllDigits.drop (h : AllDigits l) (n : Nat) : AllDigits (l.drop n) := fun d hd => h d (List.mem_of_mem_drop hd)

theorem AllDigits.take (h : AllDigits l) (n : Nat) : AllDigits (l.take n) := fun d hd => h d (List.mem_of_mem_take hd)

theorem AllDigits.set (h : AllDigits l) (hd : d < 10) (i : Nat) : AllDigits (l.set i d) := by
  intro e he
  rcases List.mem_or_eq_of_mem_set he with he | rfl
  · exact h e he
  · exact hd

theorem AllDigits.getElem? (h : AllDigits l) (hi : l[i]? = some d) : d < 10 := h d (List.mem_of_getElem? hi)

theorem value_lt (h : AllDigits l) : value l < 10 ^ l.length := by
  have hlt := Nat.ofDigits_lt_base_pow_length (b := 10) (l := l.reverse) (by decide)
    fun d hd => h d (List.mem_reverse.mp hd)
  rwa [List.length_reverse] at hlt

/-- Storing a digit changes the value by its place. -/
theorem value_set (hi : l[i]? = some d) (e : Nat) :
    value (l.set i e) + d * 10 ^ (l.length - 1 - i) = value l + e * 10 ^ (l.length - 1 - i) := by
  induction l generalizing i with
  | nil => cases hi
  | cons c l ih =>
      cases i with
      | zero =>
          cases hi
          rw [List.set_cons_zero, value_cons, value_cons, List.length_cons, Nat.add_sub_cancel, Nat.sub_zero]
          omega
      | succ i =>
          have hplace : (c :: l).length - 1 - (i + 1) = l.length - 1 - i := by
            rw [List.length_cons]
            omega
          rw [List.set_cons_succ, value_cons, value_cons, List.length_set, hplace]
          have hrest := ih hi
          omega

/-- The digits from place `i` on, in terms of those behind it. -/
theorem value_drop (hi : l[i]? = some d) : value (l.drop i) = d * 10 ^ (l.length - 1 - i) + value (l.drop (i + 1)) := by
  obtain ⟨hlt, hget⟩ := List.getElem?_eq_some_iff.mp hi
  rw [List.drop_eq_getElem_cons hlt, hget, value_cons, List.length_drop]
  congr 2
  congr 1
  omega

/-! ## Leading zeros -/

/-- The digits without leading zeros; the last digit stays. -/
def trim : List Nat → List Nat
  | 0 :: d :: l => trim (d :: l)
  | l => l

/-- No leading zero, unless it is the only digit. -/
def Trimmed (l : List Nat) : Prop := l = [0] ∨ ∃ d k, l = d :: k ∧ d ≠ 0

theorem trim_zeros (l : List Nat) : ∃ n, List.replicate n 0 ++ trim l = l := by
  fun_induction trim l with
  | case1 d l ih =>
      obtain ⟨n, hn⟩ := ih
      exact ⟨n + 1, congrArg (List.cons 0) hn⟩
  | case2 l h => exact ⟨0, rfl⟩

theorem trim_value (l : List Nat) : value (trim l) = value l := by
  obtain ⟨n, hn⟩ := trim_zeros l
  rw [← congrArg value hn, value_append, value_replicate_zero, Nat.zero_mul, Nat.zero_add]

theorem trim_digits (h : AllDigits l) : AllDigits (trim l) := by
  intro d hd
  obtain ⟨n, hn⟩ := trim_zeros l
  apply h d
  rw [← hn]
  exact List.mem_append_right _ hd

theorem trim_length_le (l : List Nat) : (trim l).length ≤ l.length := by
  obtain ⟨n, hn⟩ := trim_zeros l
  rw [← congrArg List.length hn, List.length_append]
  exact Nat.le_add_left _ _

theorem trim_trimmed (h : l ≠ []) : Trimmed (trim l) := by
  induction l with
  | nil => exact absurd rfl h
  | cons d k ih =>
      cases d with
      | succ d => exact Or.inr ⟨d + 1, k, rfl, Nat.succ_ne_zero d⟩
      | zero =>
          cases k with
          | nil => exact Or.inl rfl
          -- a zero with a digit behind it is taken away
          | cons e k => exact ih (List.cons_ne_nil _ _)

/-- The numeral of a number. -/
def numeral (n : Nat) : List Nat := if n = 0 then [0] else (Nat.digits 10 n).reverse

theorem numeral_digits (n : Nat) : AllDigits (numeral n) := by
  unfold numeral
  split
  · exact AllDigits.replicate_zero 1
  · intro d hd
    exact Nat.digits_lt_base (by decide) (List.mem_reverse.mp hd)

theorem Trimmed.eq_numeral (h : Trimmed l) (hdigits : AllDigits l) : l = numeral (value l) := by
  rcases h with rfl | ⟨d, k, rfl, hd⟩
  · rfl
  · have hpos : value (d :: k) ≠ 0 := by
      rw [value_cons]
      have hplace := Nat.mul_pos (Nat.pos_of_ne_zero hd) (Nat.pow_pos (n := k.length) (show 0 < 10 by decide))
      omega
    have hlast : ∀ hne : (d :: k).reverse ≠ [], (d :: k).reverse.getLast hne ≠ 0 := by
      intro hne
      rw [List.getLast_reverse]
      exact hd
    have hread := Nat.digits_ofDigits 10 (by decide) (d :: k).reverse
      (fun e he => hdigits e (List.mem_reverse.mp he)) hlast
    rw [numeral, if_neg hpos, value, hread, List.reverse_reverse]

/-- **Digits without leading zeros are the numeral of their value.** -/
theorem trim_eq_numeral (hne : l ≠ []) (h : AllDigits l) : trim l = numeral (value l) := by
  rw [← trim_value]
  exact (trim_trimmed hne).eq_numeral (trim_digits h)

/-- The longer of two numerals is the greater. -/
theorem Trimmed.value_lt_of_length (h : Trimmed l) (hk : AllDigits k) (hne : k ≠ []) (hlen : k.length < l.length) :
    value k < value l := by
  rcases h with rfl | ⟨d, m, rfl, hd⟩
  · have hpos := List.length_pos_iff.mpr hne
    rw [List.length_singleton] at hlen
    omega
  · rw [List.length_cons] at hlen
    have hplace : 10 ^ m.length ≤ d * 10 ^ m.length := Nat.le_mul_of_pos_left _ (Nat.pos_of_ne_zero hd)
    have hpow : 10 ^ k.length ≤ 10 ^ m.length := Nat.pow_le_pow_right (by decide) (Nat.lt_succ_iff.mp hlen)
    have hlt := value_lt hk
    rw [value_cons]
    omega

end Vnt.Lib
