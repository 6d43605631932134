import Vnt.Lib.Loop
import Vnt.Lib.Sha256
import Vnt.Net.Request

/-!
# `Runtime.Sha256` — `vnt_sha256`

The C code on 32-bit integers: rotations by two shifts, a buffer for the padded message that is written at computed places,
and one block of it hashed after the other.
-/

namespace Vnt.Runtime

open Lib (Turn)
open Lib.Sha256 (Registers)
open Net (Bytes sizeMax)

inductive ShaError where
  | tooLarge
  | outOfBounds
  | outOfClock
  deriving DecidableEq, Repr

/-! ## `vnt_sha256_block` -/

def shaRotr (x n : UInt32) : UInt32 := (x >>> n) ||| (x <<< (32 - n))

def shaK : List UInt32 := [
  0x428a2f98, 0x71374491, 0xb5c0fbcf, 0xe9b5dba5, 0x3956c25b, 0x59f111f1, 0x923f82a4, 0xab1c5ed5,
  0xd807aa98, 0x12835b01, 0x243185be, 0x550c7dc3, 0x72be5d74, 0x80deb1fe, 0x9bdc06a7, 0xc19bf174,
  0xe49b69c1, 0xefbe4786, 0x0fc19dc6, 0x240ca1cc, 0x2de92c6f, 0x4a7484aa, 0x5cb0a9dc, 0x76f988da,
  0x983e5152, 0xa831c66d, 0xb00327c8, 0xbf597fc7, 0xc6e00bf3, 0xd5a79147, 0x06ca6351, 0x14292967,
  0x27b70a85, 0x2e1b2138, 0x4d2c6dfc, 0x53380d13, 0x650a7354, 0x766a0abb, 0x81c2c92e, 0x92722c85,
  0xa2bfe8a1, 0xa81a664b, 0xc24b8b70, 0xc76c51a3, 0xd192e819, 0xd6990624, 0xf40e3585, 0x106aa070,
  0x19a4c116, 0x1e376c08, 0x2748774c, 0x34b0bcb5, 0x391c0cb3, 0x4ed8aa4a, 0x5b9cca4f, 0x682e6ff3,
  0x748f82ee, 0x78a5636f, 0x84c87814, 0x8cc70208, 0x90befffa, 0xa4506ceb, 0xbef9a3f7, 0xc67178f2]

/-- `w[i]` for `i < 16`. -/
def blockWord (block : Bytes) (i : Nat) : UInt32 :=
  (block.getD (i * 4) 0).toUInt32 <<< 24 ||| (block.getD (i * 4 + 1) 0).toUInt32 <<< 16 |||
    (block.getD (i * 4 + 2) 0).toUInt32 <<< 8 ||| (block.getD (i * 4 + 3) 0).toUInt32

/-- `w[i]` from the words before it. -/
def nextWord (w : List UInt32) (i : Nat) : UInt32 :=
  let s0 := shaRotr (w.getD (i - 15) 0) 7 ^^^ shaRotr (w.getD (i - 15) 0) 18 ^^^ (w.getD (i - 15) 0 >>> 3)
  let s1 := shaRotr (w.getD (i - 2) 0) 17 ^^^ shaRotr (w.getD (i - 2) 0) 19 ^^^ (w.getD (i - 2) 0 >>> 10)
  w.getD (i - 16) 0 + s0 + w.getD (i - 7) 0 + s1

def blockWords (block : Bytes) : List UInt32 :=
  (List.range' 16 48).foldl (fun w i => w ++ [nextWord w i]) ((List.range 16).map (blockWord block))

/-- A turn of the loop over the 64 words. -/
def shaRound (w : List UInt32) (r : Registers UInt32) (i : Nat) : Registers UInt32 :=
  let s1 := shaRotr r.e 6 ^^^ shaRotr r.e 11 ^^^ shaRotr r.e 25
  let ch := (r.e &&& r.f) ^^^ (~~~r.e &&& r.g)
  let t1 := r.h + s1 + ch + shaK.getD i 0 + w.getD i 0
  let s0 := shaRotr r.a 2 ^^^ shaRotr r.a 13 ^^^ shaRotr r.a 22
  let maj := (r.a &&& r.b) ^^^ (r.a &&& r.c) ^^^ (r.b &&& r.c)
  let t2 := s0 + maj
  ⟨t1 + t2, r.a, r.b, r.c, r.d + t1, r.e, r.f, r.g⟩

def sha256Block (h : Registers UInt32) (block : Bytes) : Registers UInt32 :=
  let r := (List.range 64).foldl (shaRound (blockWords block)) h
  ⟨h.a + r.a, h.b + r.b, h.c + r.c, h.d + r.d, h.e + r.e, h.f + r.f, h.g + r.g, h.h + r.h⟩

/-! ## `vnt_sha256` -/

def shaInit : Registers UInt32 :=
  ⟨0x6a09e667, 0xbb67ae85, 0x3c6ef372, 0xa54ff53a, 0x510e527f, 0x9b05688c, 0x1f83d9ab, 0x5be0cd19⟩

/-- `buffer[i] = v` -/
def storeByte (buffer : Bytes) (i : Nat) (v : UInt8) : Except ShaError Bytes :=
  if i < buffer.length then .ok (buffer.set i v) else .error .outOfBounds

/-- `memcpy(buffer, data, n)` -/
def copyIn (buffer data : Bytes) (n : Nat) : Except ShaError Bytes :=
  if n ≤ buffer.length ∧ n ≤ data.length then .ok (data.take n ++ buffer.drop n) else .error .outOfBounds

/-- The bytes before the terminator. -/
def strlen (data : Bytes) : Nat := (data.takeWhile (· ≠ 0)).length

/-- `for (size_t i = 0; i < padded; i += 64) vnt_sha256_block(h, buffer + i);` -/
def blockTurn (buffer : Bytes) (padded : Nat) : Registers UInt32 × Nat → Except ShaError (Turn (Registers UInt32 × Nat) (Registers UInt32))
  | (h, i) =>
      if i < padded then
        if i + 64 ≤ buffer.length then pure (.next (sha256Block h ((buffer.drop i).take 64), i + 64))
        else .error .outOfBounds
      else pure (.done h)

/-- `(n + 9 + 63) / 64 * 64`; the sum does not wrap, `n` is at most `SIZE_MAX - 72`. -/
def paddedSize (n : Nat) : Nat := (n + 9 + 63) / 64 * 64

/-- The buffer as it is hashed. -/
def paddedBuffer (data : Bytes) : Except ShaError Bytes := do
  let n := strlen data
  let buffer := List.replicate (paddedSize n) 0
  let buffer ← copyIn buffer data n
  let buffer ← storeByte buffer n 0x80
  let bits := n * 8 % 2 ^ 64
  (List.range 8).foldlM (fun buffer i => storeByte buffer (paddedSize n - 1 - i) (UInt8.ofNat (bits >>> (i * 8)))) buffer

/-- `snprintf(…, "%08x", w)` -/
def printWord (w : UInt32) : Bytes := (Lib.digitsOf 16 8 w.toNat).map Lib.lowerHex

def vntSha256 (data : Bytes) : Except ShaError Bytes :=
  if strlen data > sizeMax - 72 then .error .tooLarge
  else do
    let buffer ← paddedBuffer data
    let h ← Lib.loop .outOfClock (blockTurn buffer (paddedSize (strlen data))) (paddedSize (strlen data) + 1) (shaInit, 0)
    pure (h.toList.flatMap printWord)

/-!
## `vnt_sha256` computes SHA-256

The words of the C code are those of the standard, operation by operation; the buffer is the padded message, whatever the
length leaves over; and the loop over the blocks is the fold of the standard.
-/

open Lib.Sha256 (Registers Constants)

/-! ## Words -/

theorem shaRotr_toBitVec (x n : UInt32) (hpos : 0 < n.toNat) (h : n.toNat < 32) :
    (shaRotr x n).toBitVec = x.toBitVec.rotateRight n.toNat := by
  have hle : n ≤ 32 := by
    rw [UInt32.le_iff_toNat_le]
    exact Nat.le_of_lt h
  have hsub : (32 - n).toNat = 32 - n.toNat := by
    rw [UInt32.toNat_sub_of_le _ _ hle]
    rfl
  apply BitVec.eq_of_toNat_eq
  rw [UInt32.toNat_toBitVec, shaRotr, UInt32.toNat_or, UInt32.toNat_shiftRight, UInt32.toNat_shiftLeft, hsub,
    Nat.mod_eq_of_lt h, Nat.mod_eq_of_lt (show 32 - n.toNat < 32 by omega), BitVec.rotateRight_def, BitVec.toNat_or,
    BitVec.toNat_ushiftRight, BitVec.toNat_shiftLeft, Nat.mod_eq_of_lt h, UInt32.toNat_toBitVec]

theorem smallSigma0_toBitVec (x : UInt32) :
    (shaRotr x 7 ^^^ shaRotr x 18 ^^^ (x >>> 3)).toBitVec = Lib.Sha256.smallSigma0 x.toBitVec := by
  rw [UInt32.toBitVec_xor, UInt32.toBitVec_xor, shaRotr_toBitVec x 7 (by decide) (by decide),
    shaRotr_toBitVec x 18 (by decide) (by decide)]
  rfl

theorem smallSigma1_toBitVec (x : UInt32) :
    (shaRotr x 17 ^^^ shaRotr x 19 ^^^ (x >>> 10)).toBitVec = Lib.Sha256.smallSigma1 x.toBitVec := by
  rw [UInt32.toBitVec_xor, UInt32.toBitVec_xor, shaRotr_toBitVec x 17 (by decide) (by decide),
    shaRotr_toBitVec x 19 (by decide) (by decide)]
  rfl

theorem bigSigma0_toBitVec (x : UInt32) :
    (shaRotr x 2 ^^^ shaRotr x 13 ^^^ shaRotr x 22).toBitVec = Lib.Sha256.bigSigma0 x.toBitVec := by
  rw [UInt32.toBitVec_xor, UInt32.toBitVec_xor, shaRotr_toBitVec x 2 (by decide) (by decide),
    shaRotr_toBitVec x 13 (by decide) (by decide), shaRotr_toBitVec x 22 (by decide) (by decide)]
  rfl

theorem bigSigma1_toBitVec (x : UInt32) :
    (shaRotr x 6 ^^^ shaRotr x 11 ^^^ shaRotr x 25).toBitVec = Lib.Sha256.bigSigma1 x.toBitVec := by
  rw [UInt32.toBitVec_xor, UInt32.toBitVec_xor, shaRotr_toBitVec x 6 (by decide) (by decide),
    shaRotr_toBitVec x 11 (by decide) (by decide), shaRotr_toBitVec x 25 (by decide) (by decide)]
  rfl

theorem toNat_shiftByte (b : UInt8) (n : UInt32) (h : n.toNat ≤ 24) :
    (b.toUInt32 <<< n).toNat = b.toNat <<< n.toNat := by
  have hb := b.toNat_lt
  have hpow : 2 ^ n.toNat ≤ 2 ^ 24 := Nat.pow_le_pow_right (by decide) h
  rw [UInt32.toNat_shiftLeft, UInt8.toNat_toUInt32, Nat.mod_eq_of_lt (show n.toNat < 32 by omega), Nat.shiftLeft_eq]
  apply Nat.mod_eq_of_lt
  calc b.toNat * 2 ^ n.toNat ≤ b.toNat * 2 ^ 24 := Nat.mul_le_mul_left _ hpow
    _ < 2 ^ 32 := by omega

theorem blockWord_toBitVec (block : Bytes) (t : Nat) : (blockWord block t).toBitVec = Lib.Sha256.wordOf block t := by
  apply BitVec.eq_of_toNat_eq
  rw [UInt32.toNat_toBitVec, blockWord, Lib.Sha256.wordOf, Nat.mul_comm 4 t]
  generalize block.getD (t * 4) 0 = p
  generalize block.getD (t * 4 + 1) 0 = q
  generalize block.getD (t * 4 + 2) 0 = r
  generalize block.getD (t * 4 + 3) 0 = s
  have hp := p.toNat_lt
  have hq := q.toNat_lt
  have hr := r.toNat_lt
  have hs := s.toNat_lt
  rw [BitVec.toNat_ofNat, Nat.mod_eq_of_lt (by omega), UInt32.toNat_or, UInt32.toNat_or, UInt32.toNat_or,
    toNat_shiftByte p 24 (by decide), toNat_shiftByte q 16 (by decide), toNat_shiftByte r 8 (by decide),
    UInt8.toNat_toUInt32, Nat.or_assoc, Nat.or_assoc]
  -- The lowest byte first: what stands to the right of a shifted byte is below its place.
  have hlow : r.toNat <<< 8 ||| s.toNat = r.toNat * 2 ^ 8 + s.toNat := by
    rw [← Nat.shiftLeft_add_eq_or_of_lt (by omega), Nat.shiftLeft_eq]
  have hmid : q.toNat <<< 16 ||| (r.toNat * 2 ^ 8 + s.toNat) = q.toNat * 2 ^ 16 + (r.toNat * 2 ^ 8 + s.toNat) := by
    rw [← Nat.shiftLeft_add_eq_or_of_lt (by omega), Nat.shiftLeft_eq]
  have hhigh : p.toNat <<< 24 ||| (q.toNat * 2 ^ 16 + (r.toNat * 2 ^ 8 + s.toNat)) =
      p.toNat * 2 ^ 24 + (q.toNat * 2 ^ 16 + (r.toNat * 2 ^ 8 + s.toNat)) := by
    rw [← Nat.shiftLeft_add_eq_or_of_lt (by omega), Nat.shiftLeft_eq]
  show p.toNat <<< 24 ||| (q.toNat <<< 16 ||| (r.toNat <<< 8 ||| s.toNat)) = _
  rw [hlow, hmid, hhigh, Nat.add_assoc, Nat.add_assoc]

/-! ## The tables -/

theorem shaK_roots : ∀ t < 64, (shaK.getD t 0).toNat < 2 ^ 32 ∧ ∃ whole ∈ List.range 8,
    (whole * 2 ^ 32 + (shaK.getD t 0).toNat) ^ 3 ≤ Lib.Sha256.primes.getD t 0 * 2 ^ (32 * 3) ∧
    Lib.Sha256.primes.getD t 0 * 2 ^ (32 * 3) < (whole * 2 ^ 32 + (shaK.getD t 0).toNat + 1) ^ 3 := by
  decide +kernel

theorem shaInit_roots : ∀ t < 8, (shaInit.toList.getD t 0).toNat < 2 ^ 32 ∧ ∃ whole ∈ List.range 8,
    (whole * 2 ^ 32 + (shaInit.toList.getD t 0).toNat) ^ 2 ≤ Lib.Sha256.primes.getD t 0 * 2 ^ (32 * 2) ∧
    Lib.Sha256.primes.getD t 0 * 2 ^ (32 * 2) < (whole * 2 ^ 32 + (shaInit.toList.getD t 0).toNat + 1) ^ 2 := by
  decide +kernel

/-- The tables of the code are the constants of the standard. -/
def shaConstants : Constants where
  K t := (shaK.getD t 0).toBitVec
  H t := (shaInit.toList.getD t 0).toBitVec
  cube := by
    intro t ht
    obtain ⟨hlt, whole, -, hroot⟩ := shaK_roots t ht
    rw [Lib.Sha256.nth_prime ht]
    exact ⟨hlt, whole, hroot⟩
  square := by
    intro t ht
    obtain ⟨hlt, whole, -, hroot⟩ := shaInit_roots t ht
    rw [Lib.Sha256.nth_prime (by omega)]
    exact ⟨hlt, whole, hroot⟩

theorem shaK_toBitVec (constants : Constants) {t : Nat} (ht : t < 64) : (shaK.getD t 0).toBitVec = constants.K t := by
  apply BitVec.eq_of_toNat_eq
  exact (shaConstants.cube t ht).unique (constants.cube t ht)

theorem shaInit_toBitVec (constants : Constants) : shaInit.map UInt32.toBitVec = Lib.Sha256.initial constants.H := by
  have hword : ∀ t < 8, (shaInit.toList.getD t 0).toBitVec = constants.H t := by
    intro t ht
    apply BitVec.eq_of_toNat_eq
    exact (shaConstants.square t ht).unique (constants.square t ht)
  rw [Lib.Sha256.initial, ← hword 0 (by decide), ← hword 1 (by decide), ← hword 2 (by decide), ← hword 3 (by decide),
    ← hword 4 (by decide), ← hword 5 (by decide), ← hword 6 (by decide), ← hword 7 (by decide)]
  rfl

/-! ## A block -/

variable {block : Bytes} {w : List UInt32} {m : Nat}

theorem nextWord_toBitVec {W : Nat → Lib.Sha256.Word} {i : Nat} (hi : 16 ≤ i) (hw : ∀ j < i, (w.getD j 0).toBitVec = W j) :
    (nextWord w i).toBitVec = Lib.Sha256.smallSigma1 (W (i - 2)) + W (i - 7) + Lib.Sha256.smallSigma0 (W (i - 15)) +
      W (i - 16) := by
  unfold nextWord
  rw [UInt32.toBitVec_add, UInt32.toBitVec_add, UInt32.toBitVec_add, smallSigma0_toBitVec, smallSigma1_toBitVec,
    hw (i - 15) (by omega), hw (i - 2) (by omega), hw (i - 16) (by omega), hw (i - 7) (by omega)]
  ac_rfl

/-- The first `m` words behind the block are those of the schedule. -/
theorem extended_words (block : Bytes) (m : Nat) :
    ((List.range' 16 m).foldl (fun w i => w ++ [nextWord w i]) ((List.range 16).map (blockWord block))).length = 16 + m ∧
    ∀ j < 16 + m, (((List.range' 16 m).foldl (fun w i => w ++ [nextWord w i])
      ((List.range 16).map (blockWord block))).getD j 0).toBitVec = Lib.Sha256.schedule (Lib.Sha256.wordOf block) j := by
  induction m with
  | zero =>
      refine ⟨rfl, ?_⟩
      intro j hj
      rw [Lib.Sha256.schedule, if_pos hj, ← blockWord_toBitVec]
      show (((List.range 16).map (blockWord block)).getD j 0).toBitVec = _
      rw [List.getD_eq_getElem?_getD, List.getElem?_map, List.getElem?_range hj]
      rfl
  | succ m ih =>
      rw [List.range'_1_concat, List.foldl_append]
      generalize (List.range' 16 m).foldl (fun w i => w ++ [nextWord w i]) ((List.range 16).map (blockWord block)) = w at ih
      obtain ⟨hlen, hwords⟩ := ih
      refine ⟨?_, ?_⟩
      · show (w ++ [_]).length = _
        rw [List.length_append, hlen]
        rfl
      · intro j hj
        show ((w ++ [nextWord w (16 + m)]).getD j 0).toBitVec = _
        by_cases hold : j < 16 + m
        · rw [List.getD_append _ _ _ _ (by omega)]
          exact hwords j hold
        · obtain rfl : j = 16 + m := by omega
          have hlast : (w ++ [nextWord w (16 + m)]).getD (16 + m) 0 = nextWord w (16 + m) := by
            rw [List.getD_append_right _ _ _ _ (by omega), hlen, Nat.sub_self]
            rfl
          rw [hlast, nextWord_toBitVec (by omega) hwords]
          exact (Lib.Sha256.schedule_later (by omega)).symm

theorem shaRound_map {K W : Nat → Lib.Sha256.Word} {i : Nat} (hK : (shaK.getD i 0).toBitVec = K i)
    (hW : (w.getD i 0).toBitVec = W i) (r : Registers UInt32) :
    (shaRound w r i).map UInt32.toBitVec = Lib.Sha256.round K W (r.map UInt32.toBitVec) i := by
  unfold shaRound Lib.Sha256.round
  simp only [Registers.map, UInt32.toBitVec_add, bigSigma0_toBitVec, bigSigma1_toBitVec, hK, hW]
  rfl

theorem shaRounds_map {K W : Nat → Lib.Sha256.Word} (l : List Nat) (hK : ∀ i ∈ l, (shaK.getD i 0).toBitVec = K i)
    (hW : ∀ i ∈ l, (w.getD i 0).toBitVec = W i) : ∀ r : Registers UInt32,
    (l.foldl (shaRound w) r).map UInt32.toBitVec = l.foldl (Lib.Sha256.round K W) (r.map UInt32.toBitVec) := by
  induction l with
  | nil => exact fun r => rfl
  | cons i l ih =>
      intro r
      rw [List.foldl_cons, List.foldl_cons, ← shaRound_map (hK i List.mem_cons_self) (hW i List.mem_cons_self)]
      exact ih (fun j hj => hK j (List.mem_cons_of_mem i hj)) (fun j hj => hW j (List.mem_cons_of_mem i hj)) _

theorem sha256Block_map (constants : Constants) (h : Registers UInt32) (block : Bytes) :
    (sha256Block h block).map UInt32.toBitVec =
      Lib.Sha256.compress constants.K (Lib.Sha256.wordOf block) (h.map UInt32.toBitVec) := by
  have hwords := (extended_words block 48).2
  have hrounds := @shaRounds_map (blockWords block) constants.K (Lib.Sha256.schedule (Lib.Sha256.wordOf block))
    (List.range 64) (fun i hi => shaK_toBitVec constants (List.mem_range.mp hi))
    (fun i hi => hwords i (List.mem_range.mp hi)) h
  unfold sha256Block Lib.Sha256.compress
  rw [← hrounds]
  simp only [Registers.map, UInt32.toBitVec_add, BitVec.add_comm]

/-! ## The buffer -/

variable {front back s : Bytes} {x v : UInt8} {i : Nat}

theorem storeByte_ok (hi : i = front.length) : storeByte (front ++ x :: back) i v = .ok (front ++ v :: back) := by
  have hlt : i < (front ++ x :: back).length := by
    rw [hi, List.length_append, List.length_cons]
    omega
  rw [storeByte, if_pos hlt, hi, List.set_append_right _ _ (Nat.le_refl _), Nat.sub_self]
  rfl

theorem paddedSize_eq (n : Nat) : paddedSize n = n + 1 + Lib.Sha256.padZeros n + 8 := by
  have hfind : Lib.Sha256.padZeros n = paddedSize n - n - 9 := by
    unfold Lib.Sha256.padZeros paddedSize
    rw [Nat.find_eq_iff]
    refine ⟨by omega, ?_⟩
    intro zeros hless
    omega
  rw [hfind]
  unfold paddedSize
  omega

/-- A byte of the length. -/
def lengthByte (bits i : Nat) : UInt8 := UInt8.ofNat (bits >>> (i * 8))

/-- The last eight bytes are written from the end. -/
theorem storeLength (front : Bytes) (bits : Nat) (hsize : m ≤ 8) :
    (List.range m).foldlM (fun buffer i => storeByte buffer (front.length + 8 - 1 - i) (lengthByte bits i))
      (front ++ List.replicate 8 0) =
    .ok (front ++ List.replicate (8 - m) 0 ++ ((List.range m).map (lengthByte bits)).reverse) := by
  induction m with
  | zero => exact congrArg Except.ok (List.append_nil _).symm
  | succ m ih =>
      have hcut : List.replicate (8 - m) (0 : UInt8) = List.replicate (8 - (m + 1)) 0 ++ [0] := by
        rw [← List.replicate_succ']
        congr 1
        omega
      have hplace : front.length + 8 - 1 - m = (front ++ List.replicate (8 - (m + 1)) (0 : UInt8)).length := by
        rw [List.length_append, List.length_replicate]
        omega
      rw [List.range_succ, List.foldlM_append, ih (by omega), List.map_append, List.reverse_append, hcut,
        ← List.append_assoc front, List.append_assoc _ [0]]
      show (storeByte _ _ _ >>= pure) = _
      rw [List.singleton_append, storeByte_ok hplace]
      rfl

theorem lengthBytes_eq (bits : Nat) : ((List.range 8).map (lengthByte bits)).reverse = Lib.Sha256.lengthBytes bits := by
  unfold lengthByte Lib.Sha256.lengthBytes
  simp only [Nat.shiftRight_eq_div_pow]
  rfl

theorem strlen_of_noNul (hnul : 0 ∉ s) : strlen s = s.length := by
  rw [strlen, List.takeWhile_eq_self_iff.mpr]
  intro c hc
  rw [decide_eq_true_eq]
  rintro rfl
  exact hnul hc

theorem paddedBuffer_ok (hnul : 0 ∉ s) (hlen : s.length < 2 ^ 61) : paddedBuffer s = .ok (Lib.Sha256.pad s) := by
  have hsize := paddedSize_eq s.length
  have hzeros : List.replicate (paddedSize s.length) (0 : UInt8) =
      List.replicate s.length 0 ++ 0 :: (List.replicate (Lib.Sha256.padZeros s.length) 0 ++ List.replicate 8 0) := by
    rw [hsize, List.replicate_add, List.replicate_add, List.replicate_add]
    simp only [List.append_assoc]
    rfl
  have hcopy : copyIn (List.replicate (paddedSize s.length) 0) s s.length =
      .ok (s ++ 0 :: (List.replicate (Lib.Sha256.padZeros s.length) 0 ++ List.replicate 8 0)) := by
    have hroom : s.length ≤ (List.replicate (paddedSize s.length) (0 : UInt8)).length := by
      rw [List.length_replicate]
      omega
    have hdrop : (List.replicate (paddedSize s.length) (0 : UInt8)).drop s.length =
        0 :: (List.replicate (Lib.Sha256.padZeros s.length) 0 ++ List.replicate 8 0) := by
      rw [hzeros]
      exact List.drop_left' (List.length_replicate ..)
    rw [copyIn, if_pos ⟨hroom, Nat.le_refl _⟩, List.take_length, hdrop]
  have hmark := @storeByte_ok s (List.replicate (Lib.Sha256.padZeros s.length) 0 ++ List.replicate 8 0) 0 0x80 s.length rfl
  have hbits : s.length * 8 % 2 ^ 64 = 8 * s.length := by omega
  have hlength := @storeLength 8 (s ++ 0x80 :: List.replicate (Lib.Sha256.padZeros s.length) 0) (8 * s.length)
    (Nat.le_refl 8)
  have hfront : (s ++ 0x80 :: List.replicate (Lib.Sha256.padZeros s.length) (0 : UInt8)).length + 8 =
      paddedSize s.length := by
    rw [List.length_append, List.length_cons, List.length_replicate, hsize]
    omega
  rw [hfront, lengthBytes_eq, Nat.sub_self, List.replicate_zero, List.append_nil, List.append_assoc s, List.cons_append]
    at hlength
  unfold paddedBuffer
  rw [strlen_of_noNul hnul]
  show (copyIn (List.replicate (paddedSize s.length) 0) s s.length >>= _) = _
  rw [hcopy]
  show (storeByte _ s.length 0x80 >>= _) = _
  rw [hmark, hbits]
  exact hlength

/-! ## The digest -/

/-- The loop over the blocks is the fold over the blocks. -/
theorem blocks_loop (p : Bytes) (hwhole : p.length % 64 = 0) (h : Registers UInt32) :
    Lib.loop ShaError.outOfClock (blockTurn p p.length) (p.length + 1) (h, 0) =
      .ok ((Lib.Sha256.blocks p).foldl sha256Block h) := by
  have hrun := @Lib.loop_eq _ _ _ ShaError.outOfClock (blockTurn p p.length) (p.length + 1) (h, 0)
    (fun st => st.2 % 64 = 0 ∧ st.2 ≤ p.length)
    (fun st => ((List.range' (st.2 / 64) (p.length / 64 - st.2 / 64)).map fun i => (p.drop (64 * i)).take 64).foldl
      sha256Block st.1)
    (fun st => p.length - st.2) ?_ ⟨rfl, Nat.zero_le _⟩ (Nat.lt_succ_of_le (Nat.sub_le _ _))
  · rw [Nat.zero_div, Nat.sub_zero, ← List.range_eq_range'] at hrun
    exact hrun
  · rintro ⟨h, i⟩ ⟨hplace, hle⟩
    simp only at hplace hle
    rw [blockTurn]
    by_cases hmore : i < p.length
    · have hin : i + 64 ≤ p.length := by omega
      rw [if_pos hmore, if_pos hin]
      refine ⟨.next (sha256Block h ((p.drop i).take 64), i + 64), rfl, ⟨⟨?_, hin⟩, ?_⟩, ?_⟩
      · show (i + 64) % 64 = 0
        omega
      · have hleft : p.length / 64 - i / 64 = p.length / 64 - (i + 64) / 64 + 1 := by omega
        have hstart : 64 * (i / 64) = i := by omega
        have hnext : (i + 64) / 64 = i / 64 + 1 := by omega
        show ((List.range' ((i + 64) / 64) (p.length / 64 - (i + 64) / 64)).map _).foldl sha256Block _ = _
        rw [hleft, List.range'_succ, List.map_cons, List.foldl_cons, hstart, hnext]
      · show p.length - (i + 64) < p.length - i
        omega
    · rw [if_neg hmore]
      refine ⟨.done h, rfl, ?_⟩
      have hnone : p.length / 64 - i / 64 = 0 := by omega
      show h = _
      rw [hnone]
      rfl

theorem blocks_map (constants : Constants) (bs : List Bytes) : ∀ h : Registers UInt32,
    (bs.foldl sha256Block h).map UInt32.toBitVec =
      bs.foldl (fun H block => Lib.Sha256.compress constants.K (Lib.Sha256.wordOf block) H) (h.map UInt32.toBitVec) := by
  induction bs with
  | nil => exact fun h => rfl
  | cons block bs ih =>
      intro h
      rw [List.foldl_cons, List.foldl_cons, ← sha256Block_map]
      exact ih _

/-- `"%08x"` prints the bytes of a word. -/
theorem printWord_eq (w : UInt32) : printWord w = Lib.Sha256.hexText (Lib.Sha256.wordBytes w.toBitVec) := by
  have hpairs := Lib.digitsOf_square 16 4 w.toNat
  unfold printWord Lib.Sha256.hexText Lib.Sha256.wordBytes
  rw [UInt32.toNat_toBitVec, List.flatMap_map]
  show (Lib.digitsOf 16 (2 * 4) w.toNat).map Lib.lowerHex = _
  rw [← hpairs, List.map_flatMap]
  apply List.flatMap_congr
  intro d hd
  have hlt : d < 256 := by
    obtain ⟨i, -, rfl⟩ := List.mem_map.mp hd
    exact Nat.mod_lt _ (by decide)
  rw [UInt8.toNat_ofNat_of_lt' hlt]
  rfl

theorem pad_length (s : Bytes) : (Lib.Sha256.pad s).length = paddedSize s.length := by
  have hlength : (Lib.Sha256.lengthBytes (8 * s.length)).length = 8 := by
    rw [Lib.Sha256.lengthBytes, List.length_map, List.length_range]
  rw [paddedSize_eq, Lib.Sha256.pad, List.length_append, List.length_append, List.length_cons, List.length_replicate, hlength]
  omega

/-- **`vnt_sha256` is SHA-256.** -/
theorem vntSha256_exact (constants : Constants) {s : Bytes} (hnul : 0 ∉ s) (hlen : s.length < 2 ^ 61) :
    paddedBuffer s = .ok (Lib.Sha256.pad s) ∧ (Lib.Sha256.pad s).length % 64 = 0 ∧
    vntSha256 s = .ok (Lib.Sha256.hexText (Lib.Sha256.digest constants s)) := by
  have hpadded := paddedBuffer_ok hnul hlen
  have hsize := pad_length s
  have hwhole : (Lib.Sha256.pad s).length % 64 = 0 := by
    rw [hsize, paddedSize]
    omega
  refine ⟨hpadded, hwhole, ?_⟩
  have hmax : sizeMax = 2 ^ 64 - 1 := rfl
  have hloop := blocks_loop _ hwhole shaInit
  rw [hsize] at hloop
  rw [vntSha256, strlen_of_noNul hnul, if_neg (by omega), hpadded]
  show (Lib.loop _ (blockTurn (Lib.Sha256.pad s) (paddedSize s.length)) _ _ >>= _) = _
  rw [hloop]
  show Except.ok _ = _
  have hhash := blocks_map constants (Lib.Sha256.blocks (Lib.Sha256.pad s)) shaInit
  rw [shaInit_toBitVec constants] at hhash
  rw [Lib.Sha256.digest, Lib.Sha256.hash, ← hhash, Registers.toList_map, Lib.Sha256.hexText, List.flatMap_map,
    List.flatMap_assoc]
  congr 1
  apply List.flatMap_congr
  exact fun w _ => printWord_eq w

theorem sha256_abc : vntSha256 (Net.ascii "abc") =
    .ok (Lib.Sha256.hexText (Lib.Sha256.digest shaConstants (Net.ascii "abc"))) :=
  (vntSha256_exact shaConstants (s := Net.ascii "abc") (by decide) (by decide)).2.2

end Vnt.Runtime
