import Mathlib.Data.UInt
import Mathlib.Tactic.IntervalCases
import Mathlib.Tactic.Linarith

/-!
# `Os.Phys` — the physical page allocator

`os/mm/phys.vnt` on one CPU. A bitmap is the memory behind one of the three bitmap symbols, a byte at each offset, all
zero when the kernel is entered; the three state slots that only the allocator writes are fields. Integers are the
64-bit integers of VNT: every frame number the loops compute stays below 2^19, and the operands of every division are
not negative, so `Int` and its division do.
-/

namespace Vnt.Os

/-! ## Bitmaps -/

/-- The bytes of one bitmap. -/
abbrev Bitmap := Int → UInt8

/-- `mask` after the loop that doubles it. -/
def bitMask : Nat → Int
  | 0 => 1
  | bit + 1 => bitMask bit * 2

def physBitmapGet (bitmap : Bitmap) (frame : Int) : Int :=
  if frame < 0 ∨ frame ≥ 262144 then 0
  else ((bitmap (frame / 8)).toNat : Int) / bitMask (frame % 8).toNat % 2

def physBitmapSet (bitmap : Bitmap) (frame value : Int) : Int × Bitmap :=
  if frame < 0 ∨ frame ≥ 262144 then (0, bitmap)
  else
    let mask := bitMask (frame % 8).toNat
    let byte : Int := (bitmap (frame / 8)).toNat
    let present := byte / mask % 2
    if value ≠ 0 then
      if present = 0 then (1, Function.update bitmap (frame / 8) (UInt8.ofInt (byte + mask))) else (1, bitmap)
    else if present = 1 then (1, Function.update bitmap (frame / 8) (UInt8.ofInt (byte - mask))) else (1, bitmap)

/-! ## The state -/

/-- The bitmaps, and the slots 28, 29 and 176 of the kernel's state. -/
structure PhysState where
  usable : Bitmap
  allocated : Bitmap
  reserved : Bitmap
  totalPages : Int
  freePages : Int
  cursor : Int

namespace PhysState

def usableGet (s : PhysState) (frame : Int) : Int := physBitmapGet s.usable frame

def allocatedGet (s : PhysState) (frame : Int) : Int := physBitmapGet s.allocated frame

def reservedGet (s : PhysState) (frame : Int) : Int := physBitmapGet s.reserved frame

def usableSet (s : PhysState) (frame value : Int) : PhysState :=
  { s with usable := (physBitmapSet s.usable frame value).2 }

def allocatedSet (s : PhysState) (frame value : Int) : PhysState :=
  { s with allocated := (physBitmapSet s.allocated frame value).2 }

def reservedSet (s : PhysState) (frame value : Int) : PhysState :=
  { s with reserved := (physBitmapSet s.reserved frame value).2 }

end PhysState

/-- A loop that applies `set` to `count` frames, beginning with `frame`. -/
def forFrames (set : PhysState → Int → PhysState) : Nat → Int → PhysState → PhysState
  | 0, _, s => s
  | count + 1, frame, s => forFrames set count (frame + 1) (set s frame)

/-! ## Initialisation -/

/-- What the boot information says: `phys_mmap_count`, the fields of the regions, `kernel_end_addr`, and where the
    information block lies. The functions that read it only read. -/
structure BootInfo where
  regionCount : Int
  base : Int → Int
  length : Int → Int
  type : Int → Int
  kernelEnd : Int
  infoStart : Int
  infoSize : Int

/-- The state at entry: the bitmaps are in `.bss`. -/
def PhysState.entry : PhysState where
  usable := fun _ => 0
  allocated := fun _ => 0
  reserved := fun _ => 0
  totalPages := 0
  freePages := 0
  cursor := 0

/-- The length of a region inside the first GiB. -/
def clampLength (base length : Int) : Int := if length > 1073741824 - base then 1073741824 - base else length

/-- Pass one on a region. -/
def markUsable (boot : BootInfo) (region : Int) (s : PhysState) : PhysState :=
  if boot.type region = 1 ∧ boot.base region ≥ 0 ∧ boot.base region < 1073741824 ∧ boot.length region > 0 then
    let base := boot.base region
    let length := clampLength base (boot.length region)
    let start := max ((base + 4096 - 1) / 4096) 256
    let stop := min ((base + length) / 4096) 262144
    forFrames (fun s frame => s.usableSet frame 1) (stop - start).toNat start s
  else s

/-- Pass two on a region. -/
def unmarkTouched (boot : BootInfo) (region : Int) (s : PhysState) : PhysState :=
  if boot.type region ≠ 1 ∧ boot.base region ≥ 0 ∧ boot.base region < 1073741824 ∧ boot.length region > 0 then
    let base := boot.base region
    let length := clampLength base (boot.length region)
    let start := max (base / 4096) 0
    let stop := min ((base + length + 4095) / 4096) 262144
    forFrames (fun s frame => s.usableSet frame 0) (stop - start).toNat start s
  else s

/-- A loop over the regions. -/
def forRegions (pass : Int → PhysState → PhysState) : Nat → Int → PhysState → PhysState
  | 0, _, s => s
  | count + 1, region, s => forRegions pass count (region + 1) (pass region s)

/-- A frame of the kernel or of the information block. -/
def PhysState.claim (s : PhysState) (frame : Int) : PhysState := (s.allocatedSet frame 1).reservedSet frame 1

def reserveKernel (boot : BootInfo) (s : PhysState) : PhysState :=
  forFrames PhysState.claim (min ((boot.kernelEnd + 4096 - 1) / 4096) 262144).toNat 0 s

def reserveInfo (boot : BootInfo) (s : PhysState) : PhysState :=
  if boot.infoStart > 0 ∧ boot.infoSize > 0 ∧ boot.infoStart < 1073741824 then
    let first := boot.infoStart / 4096
    let last := min ((boot.infoStart + boot.infoSize + 4096 - 1) / 4096) 262144
    forFrames PhysState.claim (last - first).toNat first s
  else s

/-- The loop that counts: usable frames, and those of them that can be allocated. -/
def countPages (s : PhysState) : Nat → Int → Int × Int → Int × Int
  | 0, _, pages => pages
  | count + 1, frame, (total, free) =>
      countPages s count (frame + 1)
        (if s.usableGet frame = 1 then (total + 1, if frame ≥ 256 ∧ s.allocatedGet frame = 0 then free + 1 else free)
        else (total, free))

/-- `phys_init`; `none` is the return of 0. -/
def physInit (boot : BootInfo) : Option PhysState :=
  if boot.regionCount ≤ 0 then none
  else
    let s := forRegions (markUsable boot) boot.regionCount.toNat 0 .entry
    let s := forRegions (unmarkTouched boot) boot.regionCount.toNat 0 s
    let s := reserveInfo boot (reserveKernel boot s)
    let pages := countPages s 262144 0 (0, 0)
    some { s with totalPages := pages.1, freePages := pages.2, cursor := 256 }

/-! ## Allocation -/

def physAllocTryFrame (s : PhysState) (frame : Int) : Int × PhysState :=
  if frame < 256 ∨ frame ≥ 262144 then (0, s)
  else if s.usableGet frame ≠ 1 ∨ s.allocatedGet frame ≠ 0 then (0, s)
  else if (physBitmapSet s.allocated frame 1).1 ≠ 1 then (0, s)
  else
    (frame * 4096, { s.allocatedSet frame 1 with
      freePages := s.freePages - 1
      cursor := if frame + 1 ≥ 262144 then 256 else frame + 1 })

/-- A loop of `phys_alloc_page` over `count` frames. -/
def scanFrames : Nat → Int → PhysState → Int × PhysState
  | 0, _, s => (0, s)
  | count + 1, frame, s =>
      let (page, s') := physAllocTryFrame s frame
      if page ≠ 0 then (page, s') else scanFrames count (frame + 1) s'

/-- The cursor, put back to the first frame when it is out of range. -/
def PhysState.withStart (s : PhysState) : PhysState :=
  if s.cursor < 256 ∨ s.cursor ≥ 262144 then { s with cursor := 256 } else s

def physAllocPage (s : PhysState) : Int × PhysState :=
  let s := s.withStart
  let start := s.cursor
  let (page, s) := scanFrames (262144 - start).toNat start s
  if page ≠ 0 then (page, s) else scanFrames (start - 256).toNat 256 s

/-- The loop of `phys_range_is_free`. -/
def framesAreFree (s : PhysState) : Nat → Int → Int
  | 0, _ => 1
  | count + 1, frame =>
      if s.usableGet frame ≠ 1 ∨ s.allocatedGet frame ≠ 0 ∨ s.reservedGet frame ≠ 0 then 0
      else framesAreFree s count (frame + 1)

def physRangeIsFree (s : PhysState) (first count : Int) : Int :=
  if count ≤ 0 ∨ first < 256 ∨ first ≥ 262144 then 0
  else if count > 262144 - first then 0
  else framesAreFree s count.toNat first

/-- A run that is free is taken. -/
def takeRun (s : PhysState) (first count : Int) : PhysState :=
  { forFrames (fun s frame => s.allocatedSet frame 1) count.toNat first s with
    freePages := s.freePages - count
    cursor := if first + count ≥ 262144 then 256 else first + count }

/-- A loop of `phys_alloc_contiguous_pages` over `tries` positions of the run. -/
def scanRuns (count : Int) : Nat → Int → PhysState → Int × PhysState
  | 0, _, s => (0, s)
  | tries + 1, first, s =>
      if physRangeIsFree s first count = 1 then (first * 4096, takeRun s first count)
      else scanRuns count tries (first + 1) s

def physAllocContiguousPages (s : PhysState) (count : Int) : Int × PhysState :=
  if count ≤ 0 ∨ count > 262144 - 256 then (0, s)
  else
    let s := s.withStart
    let start := s.cursor
    let (page, s) := scanRuns count (262144 - count + 1 - start).toNat start s
    if page ≠ 0 then (page, s) else scanRuns count (min start (262144 - count + 1) - 256).toNat 256 s

/-! ## Release -/

/-- The loop that checks a run before it is freed. -/
def framesCanBeFreed (s : PhysState) : Nat → Int → Bool
  | 0, _ => true
  | count + 1, frame =>
      if s.usableGet frame ≠ 1 ∨ s.allocatedGet frame ≠ 1 ∨ s.reservedGet frame = 1 then false
      else framesCanBeFreed s count (frame + 1)

/-- The cursor after the frame `first` has been freed. -/
def PhysState.hinted (s : PhysState) (first : Int) : PhysState :=
  if s.cursor < 256 ∨ s.cursor ≥ 262144 ∨ first < s.cursor then { s with cursor := first } else s

def physFreeContiguousPages (s : PhysState) (address count : Int) : Int × PhysState :=
  if count ≤ 0 ∨ address < 256 * 4096 ∨ address ≥ 1073741824 then (0, s)
  else if address % 4096 ≠ 0 then (0, s)
  else
    let first := address / 4096
    if count > 262144 - first then (0, s)
    else if framesCanBeFreed s count.toNat first = false then (0, s)
    else
      let s' := forFrames (fun s frame => s.allocatedSet frame 0) count.toNat first s
      (1, PhysState.hinted { s' with freePages := s'.freePages + count } first)

def physFreePage (s : PhysState) (address : Int) : Int × PhysState :=
  if address < 256 * 4096 ∨ address ≥ 1073741824 then (0, s)
  else
    let frame := address / 4096
    if frame * 4096 ≠ address then (0, s)
    else if s.usableGet frame ≠ 1 ∨ s.allocatedGet frame ≠ 1 then (0, s)
    else if s.reservedGet frame = 1 then (0, s)
    else
      let s' := s.allocatedSet frame 0
      (1, PhysState.hinted { s' with freePages := s'.freePages + 1 } frame)

def physReserveAllocatedPage (s : PhysState) (address : Int) : Int × PhysState :=
  if address < 256 * 4096 ∨ address ≥ 1073741824 then (0, s)
  else
    let frame := address / 4096
    if frame * 4096 ≠ address then (0, s)
    else if s.usableGet frame ≠ 1 ∨ s.allocatedGet frame ≠ 1 then (0, s)
    else (1, s.reservedSet frame 1)

/-!
## Bitmaps as sets of frames

A bit of a byte is a quotient and a remainder, and setting it is an addition. What the other modules use is only that
a frame's bit can be read back and that no other frame's bit moves.
-/

/-! ## Bits of a byte -/

theorem bitMask_eq (bit : Nat) : bitMask bit = ((2 ^ bit : Nat) : Int) := by
  induction bit with
  | zero => rfl
  | succ bit ih =>
      rw [bitMask, ih, Nat.pow_succ]
      push_cast
      rfl

/-- Adding a power of two sets a bit that is clear, and moves no other. -/
theorem addBit {byte j : Nat} (hbit : byte / 2 ^ j % 2 = 0) (k : Nat) :
    (byte + 2 ^ j) / 2 ^ k % 2 = if k = j then 1 else byte / 2 ^ k % 2 := by
  have hpow : ∀ a d, 2 ^ (a + d + 1) = 2 ^ a * (2 * 2 ^ d) := by
    intro a d
    rw [Nat.pow_succ', Nat.pow_add, Nat.mul_left_comm]
  rcases lt_trichotomy k j with hlt | rfl | hlt
  · -- the lower places of a power of two are zero
    obtain ⟨d, rfl⟩ := Nat.exists_eq_add_of_lt hlt
    rw [if_neg hlt.ne, hpow, Nat.add_mul_div_left _ _ (Nat.two_pow_pos k)]
    omega
  · rw [if_pos rfl, Nat.add_div_right _ (Nat.two_pow_pos k)]
    omega
  · obtain ⟨d, rfl⟩ := Nat.exists_eq_add_of_lt hlt
    -- there is no carry
    have hhalf : (byte / 2 ^ j + 1) / 2 = byte / 2 ^ j / 2 := by omega
    rw [if_neg hlt.ne', hpow, ← Nat.div_div_eq_div_mul, ← Nat.div_div_eq_div_mul, Nat.add_div_right _ (Nat.two_pow_pos j),
      hhalf, Nat.div_div_eq_div_mul, Nat.div_div_eq_div_mul]

theorem addBit_lt {byte j : Nat} (hbyte : byte < 256) (hj : j < 8) (hbit : byte / 2 ^ j % 2 = 0) : byte + 2 ^ j < 256 := by
  interval_cases j <;> omega

theorem subtractBit {byte j : Nat} (hbit : byte / 2 ^ j % 2 = 1) : 2 ^ j ≤ byte ∧
    ∀ k, (byte - 2 ^ j) / 2 ^ k % 2 = if k = j then 0 else byte / 2 ^ k % 2 := by
  have hle : 2 ^ j ≤ byte := by
    by_contra h
    rw [Nat.div_eq_of_lt (by omega)] at hbit
    cases hbit
  -- adding the power to what is left gives the byte back
  obtain ⟨rest, rfl⟩ := Nat.exists_eq_add_of_le' hle
  rw [Nat.add_div_right _ (Nat.two_pow_pos j)] at hbit
  have hrest : rest / 2 ^ j % 2 = 0 := by omega
  refine ⟨hle, fun k => ?_⟩
  rw [Nat.add_sub_cancel, addBit hrest k]
  split
  · subst k
    exact hrest
  · rfl

/-- What `mem_write_u8` stores of a small value. -/
theorem toNat_ofInt {n : Nat} (h : n < 256) : (UInt8.ofInt (n : Int)).toNat = n := by
  rw [UInt8.ofInt, UInt8.toNat_ofNat']
  omega

/-- The bit of a frame in its byte. -/
def bitOf (byte : UInt8) (frame : Int) : Nat := byte.toNat / 2 ^ (frame % 8).toNat % 2

/-- The frames a bitmap covers. -/
def InBitmap (frame : Int) : Prop := 0 ≤ frame ∧ frame < 262144

theorem bitmapGet_eq (b : Bitmap) {frame : Int} (h : InBitmap frame) :
    physBitmapGet b frame = (bitOf (b (frame / 8)) frame : Int) := by
  have hrange : ¬(frame < 0 ∨ frame ≥ 262144) := by
    have := h.1
    have := h.2
    omega
  rw [physBitmapGet, if_neg hrange, bitMask_eq, bitOf]
  push_cast
  rfl

theorem bitmapGet_outside (b : Bitmap) {frame : Int} (h : ¬ InBitmap frame) : physBitmapGet b frame = 0 := by
  rw [physBitmapGet, if_pos]
  unfold InBitmap at h
  omega

/-- A bit is 0 or 1. -/
theorem bitmapGet_cases (b : Bitmap) (frame : Int) : physBitmapGet b frame = 0 ∨ physBitmapGet b frame = 1 := by
  by_cases h : InBitmap frame
  · rw [bitmapGet_eq b h, bitOf]
    omega
  · exact .inl (bitmapGet_outside b h)

theorem inBitmap_of_get {b : Bitmap} {frame : Int} (h : physBitmapGet b frame = 1) : InBitmap frame := by
  by_contra hout
  rw [bitmapGet_outside b hout] at h
  cases h

/-! ## Writing a bit -/

/-- The byte after `value` has been written to the bit of a frame. -/
theorem bitmapSet_eq (b : Bitmap) {frame : Int} (value : Int) (h : InBitmap frame) : ∃ byte : UInt8,
    physBitmapSet b frame value = (1, Function.update b (frame / 8) byte) ∧
      ∀ g : Int, bitOf byte g =
        if g % 8 = frame % 8 then (if value = 0 then 0 else 1) else bitOf (b (frame / 8)) g := by
  have hrange : ¬(frame < 0 ∨ frame ≥ 262144) := by
    have := h.1
    have := h.2
    omega
  have hbyte : (b (frame / 8)).toNat < 256 := (b (frame / 8)).toNat_lt
  have hj : (frame % 8).toNat < 8 := by omega
  have hg : ∀ g : Int, (g % 8).toNat = (frame % 8).toNat ↔ g % 8 = frame % 8 := by
    intro g
    omega
  have hpresent : ((b (frame / 8)).toNat : Int) / bitMask (frame % 8).toNat % 2 =
      ((b (frame / 8)).toNat / 2 ^ (frame % 8).toNat % 2 : Nat) := by
    rw [bitMask_eq]
    push_cast
    rfl
  have hsame : Function.update b (frame / 8) (b (frame / 8)) = b := Function.update_eq_self _ _
  simp only [physBitmapSet, if_neg hrange, hpresent]
  by_cases hv : value = 0
  · subst hv
    rw [if_neg (by simp)]
    by_cases hbit : (b (frame / 8)).toNat / 2 ^ (frame % 8).toNat % 2 = 1
    · obtain ⟨hle, hread⟩ := subtractBit hbit
      refine ⟨UInt8.ofInt (((b (frame / 8)).toNat - 2 ^ (frame % 8).toNat : Nat) : Int), ?_, fun g => ?_⟩
      · rw [if_pos (by rw [hbit]; rfl), bitMask_eq, ← Nat.cast_sub hle]
      · rw [bitOf, toNat_ofInt (Nat.lt_of_le_of_lt (Nat.sub_le _ _) hbyte), hread]
        simp only [hg g, bitOf, if_true]
    · refine ⟨b (frame / 8), ?_, fun g => ?_⟩
      · rw [if_neg (by exact_mod_cast hbit), hsame]
      · by_cases heq : g % 8 = frame % 8
        · rw [if_pos heq, if_pos rfl, bitOf, heq]
          omega
        · rw [if_neg heq]
  · rw [if_pos hv]
    by_cases hbit : (b (frame / 8)).toNat / 2 ^ (frame % 8).toNat % 2 = 0
    · refine ⟨UInt8.ofInt (((b (frame / 8)).toNat + 2 ^ (frame % 8).toNat : Nat) : Int), ?_, fun g => ?_⟩
      · rw [if_pos (by rw [hbit]; rfl), bitMask_eq, ← Nat.cast_add]
      · rw [bitOf, toNat_ofInt (addBit_lt hbyte hj hbit), addBit hbit]
        simp only [hg g, bitOf, hv, if_false]
    · refine ⟨b (frame / 8), ?_, fun g => ?_⟩
      · rw [if_neg (by exact_mod_cast hbit), hsame]
      · by_cases heq : g % 8 = frame % 8
        · rw [if_pos heq, if_neg hv, bitOf, heq]
          omega
        · rw [if_neg heq]

/-- **A written bit is read back, and no other frame's bit moves.** -/
theorem bitmapGet_set (b : Bitmap) {frame : Int} (value : Int) (h : InBitmap frame) (g : Int) :
    physBitmapGet (physBitmapSet b frame value).2 g =
      if g = frame then (if value = 0 then 0 else 1) else physBitmapGet b g := by
  obtain ⟨byte, hset, hread⟩ := bitmapSet_eq b value h
  rw [hset]
  by_cases hg : InBitmap g
  · rw [bitmapGet_eq _ hg, bitmapGet_eq b hg]
    by_cases hsame : g / 8 = frame / 8
    · have hiff : g % 8 = frame % 8 ↔ g = frame := by omega
      show (bitOf (Function.update b (frame / 8) byte (g / 8)) g : Int) = _
      rw [hsame, Function.update_self, hread]
      simp only [hiff]
      split <;> (try split) <;> rfl
    · have hne : g ≠ frame := fun he => hsame (he ▸ rfl)
      show (bitOf (Function.update b (frame / 8) byte (g / 8)) g : Int) = _
      rw [Function.update_of_ne hsame, if_neg hne]
  · have hne : g ≠ frame := fun he => hg (he ▸ h)
    rw [bitmapGet_outside _ hg, bitmapGet_outside b hg, if_neg hne]

theorem bitmapSet_fst (b : Bitmap) {frame : Int} (value : Int) (h : InBitmap frame) :
    (physBitmapSet b frame value).1 = 1 := by
  obtain ⟨byte, hset, -⟩ := bitmapSet_eq b value h
  rw [hset]

end Vnt.Os
