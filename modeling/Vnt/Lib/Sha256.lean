import Mathlib.Data.Nat.Prime.Nth
import Vnt.Lib.Digits

/-!
# `Lib.Sha256` — the hash function SHA-256

As FIPS 180-4 defines it: words are strings of 32 bits, the constants are the first 32 bits of the fractional parts of
roots of the first primes, a message is padded with the least number of zeros and hashed block by block.
-/

namespace Vnt.Lib.Sha256

abbrev Word := BitVec 32

/-! ## Functions and constants -/

def ch (x y z : Word) : Word := (x &&& y) ^^^ (~~~x &&& z)

def maj (x y z : Word) : Word := (x &&& y) ^^^ (x &&& z) ^^^ (y &&& z)

def bigSigma0 (x : Word) : Word := x.rotateRight 2 ^^^ x.rotateRight 13 ^^^ x.rotateRight 22

def bigSigma1 (x : Word) : Word := x.rotateRight 6 ^^^ x.rotateRight 11 ^^^ x.rotateRight 25

def smallSigma0 (x : Word) : Word := x.rotateRight 7 ^^^ x.rotateRight 18 ^^^ x >>> 3

def smallSigma1 (x : Word) : Word := x.rotateRight 17 ^^^ x.rotateRight 19 ^^^ x >>> 10

/-- `k` is the first 32 bits of the fractional part of the `n`-th root of `x`. -/
def IsRootBits (n x k : Nat) : Prop :=
  k < 2 ^ 32 ∧ ∃ whole, (whole * 2 ^ 32 + k) ^ n ≤ x * 2 ^ (32 * n) ∧ x * 2 ^ (32 * n) < (whole * 2 ^ 32 + k + 1) ^ n

theorem IsRootBits.unique {n x k k' : Nat} (h : IsRootBits n x k) (h' : IsRootBits n x k') : k = k' := by
  obtain ⟨hk, whole, hlow, hhigh⟩ := h
  obtain ⟨hk', whole', hlow', hhigh'⟩ := h'
  have hlt : whole * 2 ^ 32 + k < whole' * 2 ^ 32 + k' + 1 := lt_of_pow_lt_pow_left₀ n (Nat.zero_le _) (by omega)
  have hlt' : whole' * 2 ^ 32 + k' < whole * 2 ^ 32 + k + 1 := lt_of_pow_lt_pow_left₀ n (Nat.zero_le _) (by omega)
  omega

/-- The constants of the rounds and the initial hash value. -/
structure Constants where
  K : Nat → Word
  H : Nat → Word
  cube : ∀ t < 64, IsRootBits 3 (Nat.nth Nat.Prime t) (K t).toNat
  square : ∀ t < 8, IsRootBits 2 (Nat.nth Nat.Prime t) (H t).toNat

/-- The first 64 primes. -/
def primes : List Nat := [2, 3, 5, 7, 11, 13, 17, 19, 23, 29, 31, 37, 41, 43, 47, 53, 59, 61, 67, 71, 73, 79, 83, 89, 97,
  101, 103, 107, 109, 113, 127, 131, 137, 139, 149, 151, 157, 163, 167, 173, 179, 181, 191, 193, 197, 199, 211, 223, 227,
  229, 233, 239, 241, 251, 257, 263, 269, 271, 277, 281, 283, 293, 307, 311]

/-- Trial division, enough below 18 * 18. -/
def trial (n : Nat) : Bool := 2 ≤ n ∧ ∀ d ∈ List.range' 2 16, d < n → ¬ d ∣ n

theorem trial_iff {n : Nat} (h : n < 324) : trial n = true ↔ n.Prime := by
  rw [trial, decide_eq_true_eq]
  constructor
  · rintro ⟨htwo, hnone⟩
    by_contra hcomposite
    have hsq := Nat.minFac_sq_le_self (by omega) hcomposite
    have hfactor := Nat.minFac_prime (show n ≠ 1 by omega)
    have hsmall : n.minFac < 18 := by
      by_contra hlarge
      have hbig := Nat.pow_le_pow_left (Nat.not_lt.mp hlarge) 2
      omega
    have hless : n.minFac < n := (Nat.not_prime_iff_minFac_lt htwo).mp hcomposite
    have hmem : n.minFac ∈ List.range' 2 16 := by
      rw [List.mem_range'_1]
      exact ⟨hfactor.two_le, hsmall⟩
    exact hnone _ hmem hless (Nat.minFac_dvd n)
  · intro hprime
    refine ⟨hprime.two_le, ?_⟩
    intro d hd hless hdvd
    rw [List.mem_range'_1] at hd
    rcases (Nat.dvd_prime hprime).mp hdvd with hone | hself
    · omega
    · omega

/-- Where nothing is counted. -/
theorem count_gap {p : Nat → Prop} [DecidablePred p] {a : Nat} (k : Nat) (h : ∀ n ∈ List.range' a k, ¬ p n) :
    Nat.count p (a + k) = Nat.count p a := by
  induction k with
  | zero => rfl
  | succ k ih =>
      have hlast : ¬ p (a + k) := h _ (by rw [List.mem_range'_1]; omega)
      have hbefore : ∀ n ∈ List.range' a k, ¬ p n := by
        intro n hn
        rw [List.mem_range'_1] at hn
        exact h n (by rw [List.mem_range'_1]; omega)
      rw [← Nat.add_assoc, Nat.count_succ, if_neg hlast, Nat.add_zero, ih hbefore]

theorem primes_trial : ∀ t < 64, trial (primes.getD t 0) = true ∧ primes.getD t 0 < 324 := by decide +kernel

/-- Between one prime of the list and the next there is none. -/
theorem primes_gap : ∀ t < 63, primes.getD t 0 + 1 ≤ primes.getD (t + 1) 0 ∧
    ∀ n ∈ List.range' (primes.getD t 0 + 1) (primes.getD (t + 1) 0 - (primes.getD t 0 + 1)), trial n = false := by
  decide +kernel

theorem nth_prime {t : Nat} (ht : t < 64) : Nat.nth Nat.Prime t = primes.getD t 0 := by
  have hcount : Nat.count Nat.Prime (primes.getD t 0) = t := by
    induction t with
    | zero => decide
    | succ t ih =>
        obtain ⟨hle, hgap⟩ := primes_gap t (by omega)
        obtain ⟨htrial, hlt⟩ := primes_trial t (by omega)
        obtain ⟨-, hlt'⟩ := primes_trial (t + 1) ht
        have hnone : ∀ n ∈ List.range' (primes.getD t 0 + 1) (primes.getD (t + 1) 0 - (primes.getD t 0 + 1)), ¬ n.Prime := by
          intro n hn hprime
          have hrange := List.mem_range'_1.mp hn
          rw [← trial_iff (by omega), hgap n hn] at hprime
          exact absurd hprime Bool.false_ne_true
        have hskip := count_gap _ hnone
        rw [Nat.add_sub_cancel' hle] at hskip
        rw [hskip, Nat.count_succ, ih (by omega), if_pos ((trial_iff hlt).mp htrial)]
  obtain ⟨htrial, hlt⟩ := primes_trial t ht
  have hnth := Nat.nth_count ((trial_iff hlt).mp htrial)
  rw [hcount] at hnth
  exact hnth

/-! ## Compression -/

/-- `a` to `h`, or the eight words of a hash value. -/
structure Registers (α : Type) where
  a : α
  b : α
  c : α
  d : α
  e : α
  f : α
  g : α
  h : α

namespace Registers

variable {α β : Type}

def map (f : α → β) (r : Registers α) : Registers β := ⟨f r.a, f r.b, f r.c, f r.d, f r.e, f r.f, f r.g, f r.h⟩

def toList (r : Registers α) : List α := [r.a, r.b, r.c, r.d, r.e, r.f, r.g, r.h]

@[simp] theorem toList_map (f : α → β) (r : Registers α) : (r.map f).toList = r.toList.map f := rfl

end Registers

/-- `W`: the words of the block, continued. -/
def schedule (M : Nat → Word) (t : Nat) : Word :=
  if t < 16 then M t
  else smallSigma1 (schedule M (t - 2)) + schedule M (t - 7) + smallSigma0 (schedule M (t - 15)) + schedule M (t - 16)

theorem schedule_later {M : Nat → Word} {t : Nat} (h : 16 ≤ t) : schedule M t =
    smallSigma1 (schedule M (t - 2)) + schedule M (t - 7) + smallSigma0 (schedule M (t - 15)) + schedule M (t - 16) := by
  rw [schedule, if_neg (Nat.not_lt.mpr h)]

def round (K W : Nat → Word) (r : Registers Word) (t : Nat) : Registers Word :=
  let t1 := r.h + bigSigma1 r.e + ch r.e r.f r.g + K t + W t
  let t2 := bigSigma0 r.a + maj r.a r.b r.c
  ⟨t1 + t2, r.a, r.b, r.c, r.d + t1, r.e, r.f, r.g⟩

def compress (K M : Nat → Word) (H : Registers Word) : Registers Word :=
  let r := (List.range 64).foldl (round K (schedule M)) H
  ⟨r.a + H.a, r.b + H.b, r.c + H.c, r.d + H.d, r.e + H.e, r.f + H.f, r.g + H.g, r.h + H.h⟩

/-! ## Padding and blocks -/

theorem exists_zeros (n : Nat) : ∃ zeros, (n + 1 + zeros + 8) % 64 = 0 := ⟨64 * (n + 9) - (n + 9), by omega⟩

/-- The least number of zero bytes that makes the padded message a number of blocks. -/
def padZeros (n : Nat) : Nat := Nat.find (exists_zeros n)

/-- A number of 64 bits, the highest byte first. -/
def lengthBytes (bits : Nat) : List UInt8 := (List.range 8).map fun i => UInt8.ofNat (bits / 256 ^ (7 - i))

def pad (s : List UInt8) : List UInt8 :=
  s ++ 0x80 :: List.replicate (padZeros s.length) 0 ++ lengthBytes (8 * s.length)

def blocks (p : List UInt8) : List (List UInt8) := (List.range (p.length / 64)).map fun i => (p.drop (64 * i)).take 64

/-- The word at place `t` of a block. -/
def wordOf (block : List UInt8) (t : Nat) : Word :=
  BitVec.ofNat 32 ((block.getD (4 * t) 0).toNat * 2 ^ 24 + (block.getD (4 * t + 1) 0).toNat * 2 ^ 16 +
    (block.getD (4 * t + 2) 0).toNat * 2 ^ 8 + (block.getD (4 * t + 3) 0).toNat)

/-! ## The digest -/

def initial (H : Nat → Word) : Registers Word := ⟨H 0, H 1, H 2, H 3, H 4, H 5, H 6, H 7⟩

def hash (constants : Constants) (s : List UInt8) : Registers Word :=
  (blocks (pad s)).foldl (fun H block => compress constants.K (wordOf block) H) (initial constants.H)

/-- The bytes of a word, the highest first. -/
def wordBytes (w : Word) : List UInt8 := (digitsOf 256 4 w.toNat).map UInt8.ofNat

def digest (constants : Constants) (s : List UInt8) : List UInt8 := (hash constants s).toList.flatMap wordBytes

/-- Bytes in hexadecimal. -/
def hexText (bytes : List UInt8) : List UInt8 :=
  bytes.flatMap fun b => [lowerHex (b.toNat / 16), lowerHex (b.toNat % 16)]

end Vnt.Lib.Sha256
