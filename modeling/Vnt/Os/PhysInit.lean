import Vnt.Os.InfoBlock
import Vnt.Os.PhysReachable

/-!
# `Os.PhysInit` — the frames that initialisation makes allocatable

The loops of `phys_init` say which bits they set: pass one sets those of the frames inside a type-1 region, pass two clears
those of the frames that another region touches, and the two reservations claim what the kernel and the information block
touch. The regions are those of the memory map as `phys_mmap_field` reads them, that is, with signed 64-bit numbers.
-/

namespace Vnt.Os

open Lib

variable {s : PhysState} {f : Int}

/-! ## Stretches of frames -/

/-- A frame's bit after a stretch of frames has been written. -/
theorem forFrames_reads {get : PhysState → Int → Int} {set : PhysState → Int → PhysState} {value : Int}
    (hset : ∀ s g, InBitmap g → ∀ f, get (set s g) f = if f = g then value else get s f) (count : Nat) :
    ∀ {first : Int} {s : PhysState}, 0 ≤ first → first + count ≤ 262144 → ∀ f,
      get (forFrames set count first s) f = if first ≤ f ∧ f < first + count then value else get s f := by
  induction count with
  | zero =>
      intro first s _ _ f
      rw [if_neg (by omega)]
      rfl
  | succ count ih =>
      intro first s hfirst hlast f
      rw [forFrames, ih (by omega) (by omega), hset s first ⟨hfirst, by omega⟩]
      by_cases hf : first + 1 ≤ f ∧ f < first + 1 + count
      · rw [if_pos hf, if_pos (by omega)]
      · rw [if_neg hf]
        by_cases he : f = first
        · rw [if_pos he, if_pos (by omega)]
        · rw [if_neg he, if_neg (by omega)]

/-- The stretch from `first` up to `stop`, when it is in the bitmap. -/
theorem forFrames_range {get : PhysState → Int → Int} {set : PhysState → Int → PhysState} {value first stop : Int}
    (hset : ∀ s g, InBitmap g → ∀ f, get (set s g) f = if f = g then value else get s f) (hfirst : 0 ≤ first)
    (hstop : stop ≤ 262144) :
    get (forFrames set (stop - first).toNat first s) f = if first ≤ f ∧ f < stop then value else get s f := by
  by_cases hempty : stop ≤ first
  · have hzero : (stop - first).toNat = 0 := by omega
    rw [hzero, if_neg (by omega)]
    rfl
  · rw [forFrames_reads hset _ hfirst (by omega)]
    have hiff : first ≤ f ∧ f < first + ((stop - first).toNat : Int) ↔ first ≤ f ∧ f < stop := by omega
    simp only [hiff]

theorem usableGet_set (s : PhysState) (value g : Int) (hg : InBitmap g) (f : Int) :
    (s.usableSet g value).usableGet f = if f = g then (if value = 0 then 0 else 1) else s.usableGet f :=
  bitmapGet_set s.usable value hg f

theorem allocatedGet_claim (s : PhysState) (g : Int) (hg : InBitmap g) (f : Int) :
    (s.claim g).allocatedGet f = if f = g then 1 else s.allocatedGet f := bitmapGet_set s.allocated 1 hg f

/-! ## The passes -/

variable {boot : BootInfo} {region : Int}

/-- Where a region ends, inside the first GiB. -/
abbrev clampedStop (boot : BootInfo) (region : Int) : Int :=
  boot.base region + clampLength (boot.base region) (boot.length region)

/-- A region the passes look at. -/
abbrev InWindow (boot : BootInfo) (region : Int) : Prop :=
  boot.base region ≥ 0 ∧ boot.base region < 1073741824 ∧ boot.length region > 0

/-- A region that pass one marks the frame for. -/
def Marks (boot : BootInfo) (f region : Int) : Prop :=
  (boot.type region = 1 ∧ InWindow boot region) ∧
    max ((boot.base region + 4096 - 1) / 4096) 256 ≤ f ∧ f < min (clampedStop boot region / 4096) 262144

/-- A region that pass two clears the frame for. -/
def Unmarks (boot : BootInfo) (f region : Int) : Prop :=
  (boot.type region ≠ 1 ∧ InWindow boot region) ∧
    max (boot.base region / 4096) 0 ≤ f ∧ f < min ((clampedStop boot region + 4095) / 4096) 262144

theorem markUsable_usable (boot : BootInfo) (region : Int) (s : PhysState) (f : Int) :
    (markUsable boot region s).usableGet f = 1 ↔ Marks boot f region ∨ s.usableGet f = 1 := by
  unfold markUsable
  by_cases hregion : boot.type region = 1 ∧ InWindow boot region
  · rw [if_pos hregion]
    rw [forFrames_range (fun s g hg f => usableGet_set s 1 g hg f) (by omega) (by omega)]
    by_cases hf : Marks boot f region
    · rw [if_pos hf.2]
      simp [hf]
    · rw [if_neg fun h => hf ⟨hregion, h⟩]
      simp [hf]
  · rw [if_neg hregion]
    simp [Marks, hregion]

theorem unmarkTouched_usable (boot : BootInfo) (region : Int) (s : PhysState) (f : Int) :
    (unmarkTouched boot region s).usableGet f = 1 ↔ ¬ Unmarks boot f region ∧ s.usableGet f = 1 := by
  unfold unmarkTouched
  by_cases hregion : boot.type region ≠ 1 ∧ InWindow boot region
  · rw [if_pos hregion]
    rw [forFrames_range (fun s g hg f => usableGet_set s 0 g hg f) (by omega) (by omega)]
    by_cases hf : Unmarks boot f region
    · rw [if_pos hf.2]
      simp [hf]
    · rw [if_neg fun h => hf ⟨hregion, h⟩]
      simp [hf]
  · rw [if_neg hregion]
    simp [Unmarks, hregion]

/-- A loop over the regions whose step adds to a property of the state. -/
theorem forRegions_adds {P : PhysState → Prop} {pass : Int → PhysState → PhysState} {Adds : Int → Prop}
    (hpass : ∀ region s, P (pass region s) ↔ Adds region ∨ P s) (count : Nat) : ∀ {first : Int} {s : PhysState},
      P (forRegions pass count first s) ↔ (∃ region, first ≤ region ∧ region < first + count ∧ Adds region) ∨ P s := by
  induction count with
  | zero =>
      intro first s
      refine ⟨.inr, fun h => h.resolve_left ?_⟩
      rintro ⟨region, h₁, h₂, -⟩
      omega
  | succ count ih =>
      intro first s
      rw [forRegions, ih, hpass]
      constructor
      · rintro (⟨region, h₁, h₂, hadds⟩ | hadds | hs)
        · exact .inl ⟨region, by omega, by omega, hadds⟩
        · exact .inl ⟨first, by omega, by omega, hadds⟩
        · exact .inr hs
      · rintro (⟨region, h₁, h₂, hadds⟩ | hs)
        · by_cases he : region = first
          · exact .inr (.inl (he ▸ hadds))
          · exact .inl ⟨region, by omega, by omega, hadds⟩
        · exact .inr (.inr hs)

/-! ## The bitmaps after initialisation -/

/-- The state before the pages are counted. -/
def laidOut (boot : BootInfo) : PhysState :=
  reserveInfo boot (reserveKernel boot (forRegions (unmarkTouched boot) boot.regionCount.toNat 0
    (forRegions (markUsable boot) boot.regionCount.toNat 0 .entry)))

/-- A region of the map. -/
def Listed (boot : BootInfo) (region : Int) : Prop := 0 ≤ region ∧ region < boot.regionCount

theorem entry_get (f : Int) : PhysState.entry.usableGet f ≠ 1 ∧ PhysState.entry.allocatedGet f = 0 := by
  have hzero : physBitmapGet (fun _ => 0) f = 0 := by
    by_cases hf : InBitmap f
    · rw [bitmapGet_eq _ hf]
      simp [bitOf]
    · exact bitmapGet_outside _ hf
  refine ⟨fun h => ?_, hzero⟩
  rw [PhysState.usableGet, PhysState.entry, hzero] at h
  cases h

theorem claims_usable (s : PhysState) (count : Nat) (first f : Int) :
    (forFrames PhysState.claim count first s).usableGet f = s.usableGet f :=
  forFrames_keeps (P := fun t => t.usableGet f = s.usableGet f) count (fun _ _ _ _ ht => ht) rfl

theorem sets_allocated (s : PhysState) (value : Int) (count : Nat) (first f : Int) :
    (forFrames (fun s frame => s.usableSet frame value) count first s).allocatedGet f = s.allocatedGet f :=
  forFrames_keeps (P := fun t => t.allocatedGet f = s.allocatedGet f) count (fun _ _ _ _ ht => ht) rfl

theorem passes_allocated (boot : BootInfo) (s : PhysState) (f : Int) :
    (forRegions (unmarkTouched boot) boot.regionCount.toNat 0
      (forRegions (markUsable boot) boot.regionCount.toNat 0 s)).allocatedGet f = s.allocatedGet f := by
  have hmark : (forRegions (markUsable boot) boot.regionCount.toNat 0 s).allocatedGet f = s.allocatedGet f := by
    refine forRegions_keeps (P := fun t => t.allocatedGet f = s.allocatedGet f) (fun region t ht => ?_) _ rfl
    unfold markUsable
    split
    · rw [sets_allocated, ht]
    · exact ht
  refine forRegions_keeps (P := fun t => t.allocatedGet f = s.allocatedGet f) (fun region t ht => ?_) _ hmark
  unfold unmarkTouched
  split
  · rw [sets_allocated, ht]
  · exact ht

/-- The frames of the kernel. -/
def InKernel (boot : BootInfo) (f : Int) : Prop := 0 ≤ f ∧ f < min ((boot.kernelEnd + 4096 - 1) / 4096) 262144

/-- The frames of the information block. -/
def InInfo (boot : BootInfo) (f : Int) : Prop :=
  (boot.infoStart > 0 ∧ boot.infoSize > 0 ∧ boot.infoStart < 1073741824) ∧ boot.infoStart / 4096 ≤ f ∧
    f < min ((boot.infoStart + boot.infoSize + 4096 - 1) / 4096) 262144

theorem laidOut_allocated (boot : BootInfo) (f : Int) :
    (laidOut boot).allocatedGet f = 1 ↔ InKernel boot f ∨ InInfo boot f := by
  have hclaims : ∀ {s : PhysState} {first stop : Int}, 0 ≤ first → stop ≤ 262144 →
      ((forFrames PhysState.claim (stop - first).toNat first s).allocatedGet f = 1 ↔
        (first ≤ f ∧ f < stop) ∨ s.allocatedGet f = 1) := by
    intro s first stop hfirst hstop
    rw [forFrames_range (fun s g hg f => allocatedGet_claim s g hg f) hfirst hstop]
    by_cases hf : first ≤ f ∧ f < stop
    · simp [hf]
    · simp [hf]
  have hkernel : ∀ s : PhysState, (reserveKernel boot s).allocatedGet f = 1 ↔ InKernel boot f ∨ s.allocatedGet f = 1 := by
    intro s
    have h := hclaims (s := s) (Int.le_refl 0) (by omega : min ((boot.kernelEnd + 4096 - 1) / 4096) 262144 ≤ 262144)
    rwa [Int.sub_zero] at h
  have hinfo : ∀ s : PhysState, (reserveInfo boot s).allocatedGet f = 1 ↔ InInfo boot f ∨ s.allocatedGet f = 1 := by
    intro s
    unfold reserveInfo InInfo
    by_cases hblock : boot.infoStart > 0 ∧ boot.infoSize > 0 ∧ boot.infoStart < 1073741824
    · rw [if_pos hblock, hclaims (by omega) (by omega)]
      simp [hblock]
    · rw [if_neg hblock]
      simp [hblock]
  have hpasses := passes_allocated boot .entry f
  rw [(entry_get f).2] at hpasses
  rw [laidOut, hinfo, hkernel, hpasses, or_iff_left (by decide : ¬(0 : Int) = 1), or_comm]

theorem laidOut_usable (boot : BootInfo) (f : Int) : (laidOut boot).usableGet f = 1 ↔
    (∃ region, Listed boot region ∧ Marks boot f region) ∧ ¬ ∃ region, Listed boot region ∧ Unmarks boot f region := by
  have hreserved : (laidOut boot).usableGet f = (forRegions (unmarkTouched boot) boot.regionCount.toNat 0
      (forRegions (markUsable boot) boot.regionCount.toNat 0 .entry)).usableGet f := by
    unfold laidOut reserveInfo reserveKernel
    split
    · rw [claims_usable, claims_usable]
    · rw [claims_usable]
  have hmarked : ∀ s : PhysState, (forRegions (markUsable boot) boot.regionCount.toNat 0 s).usableGet f = 1 ↔
      (∃ region, 0 ≤ region ∧ region < 0 + (boot.regionCount.toNat : Int) ∧ Marks boot f region) ∨ s.usableGet f = 1 :=
    fun s => forRegions_adds (P := fun s => s.usableGet f = 1) (fun region s => markUsable_usable boot region s f) _
  have hcleared : ∀ s : PhysState, ¬ (forRegions (unmarkTouched boot) boot.regionCount.toNat 0 s).usableGet f = 1 ↔
      (∃ region, 0 ≤ region ∧ region < 0 + (boot.regionCount.toNat : Int) ∧ Unmarks boot f region) ∨
        ¬ s.usableGet f = 1 := by
    refine fun s => forRegions_adds (P := fun s => ¬ s.usableGet f = 1) (fun region s => ?_) _
    rw [unmarkTouched_usable, not_and_or, not_not]
  have hlisted : ∀ {P : Int → Prop}, (∃ region, 0 ≤ region ∧ region < 0 + (boot.regionCount.toNat : Int) ∧ P region) ↔
      ∃ region, Listed boot region ∧ P region := by
    intro P
    refine exists_congr fun region => ?_
    rw [Listed, and_assoc]
    refine and_congr_right fun h => and_congr_left fun _ => ?_
    omega
  rw [hreserved, ← not_not (a := _ = (1 : Int)), hcleared, hmarked, not_or, not_not, hlisted, hlisted,
    or_iff_left (entry_get f).1, and_comm]

/-! ## The counters -/

theorem countPages_total (s : PhysState) (count : Nat) : ∀ (first total free : Int),
    (countPages s count first (total, free)).1 =
      total + ((Finset.Ico first (first + count)).filter fun f => s.usableGet f = 1).card := by
  induction count with
  | zero => intro first total free; simp [countPages]
  | succ count ih =>
      intro first total free
      rw [card_filter_Ico, countPages]
      by_cases hu : s.usableGet first = 1
      · rw [if_pos hu, if_pos hu, ih]
        push_cast
        omega
      · rw [if_neg hu, if_neg hu, ih, Nat.zero_add]

/-! ## The memory map -/

variable {mem : Memory} {handoff : Handoff} {kernelEnd : Int}

/-- What a reader returns; 0 where it stops the kernel. -/
def valueOf (m : Kernel Int) : Int :=
  match m fun _ => 0 with
  | .ok (value, _) => value
  | .error _ => 0

/-- What `phys_init` is told by the readers of the information block. -/
def bootInfo (mem : Memory) (handoff : Handoff) (kernelEnd : Int) : BootInfo where
  regionCount := valueOf (physMmapCount mem handoff)
  base := fun region => valueOf (physMmapBase mem handoff region)
  length := fun region => valueOf (physMmapLength mem handoff region)
  type := fun region => valueOf (physMmapType mem handoff region)
  kernelEnd := kernelEnd
  infoStart := physInfoAddr handoff
  infoSize := valueOf (physInfoSize mem handoff)

theorem valueOf_ok {m : Kernel Int} {value : Int} (h : m (fun _ => 0) = .ok (value, fun _ => 0)) :
    valueOf m = value := by
  rw [valueOf, h]

def Region.extent (region : Region) : Extent := ⟨region.base, region.base + region.length⟩

def frameExtent (f : Int) : Extent := .page 4096 f

/-- The length does not fit a signed number. -/
def Region.Misread (region : Region) : Prop := 9223372036854775808 ≤ region.length

instance (region : Region) : Decidable region.Misread := inferInstanceAs (Decidable (_ ≤ _))

/-- A number of 64 bits is read as what it is, or as a negative one. -/
theorem signed_cases {z : Int} (hlow : 0 ≤ z) (hhigh : z < 18446744073709551616) :
    (signed z = z ∧ z < 9223372036854775808) ∨ (signed z < 0 ∧ 9223372036854775808 ≤ z) := by
  unfold signed
  split <;> omega

theorem inKernel_iff : InKernel (bootInfo mem handoff kernelEnd) f ↔
    (0 ≤ f ∧ f < 262144) ∧ (frameExtent f).Meets ⟨0, kernelEnd⟩ := by
  show (0 ≤ f ∧ f < min ((kernelEnd + 4096 - 1) / 4096) 262144) ↔ _
  by_cases hempty : kernelEnd ≤ 0
  · constructor
    · intro h
      omega
    · exact fun h => absurd h.2 (Extent.not_meets_of_empty hempty)
  · rw [frameExtent, Extent.page_meets_iff (by decide) (by simpa using hempty)]
    simp only
    omega

namespace MemoryMap

variable (map : MemoryMap mem handoff)

/-- An entry of the map. -/
def Has (region : Region) : Prop := ∃ index, (0 ≤ index ∧ index < map.count) ∧ map.region index = region

theorem listed_iff {index : Int} : Listed (bootInfo mem handoff kernelEnd) index ↔ 0 ≤ index ∧ index < map.count := by
  rw [Listed, bootInfo]
  simp only [valueOf_ok map.count_run]

theorem region_range (index : Int) : (0 ≤ (map.region index).base ∧ (map.region index).base < 18446744073709551616) ∧
    0 ≤ (map.region index).length ∧ (map.region index).length < 18446744073709551616 :=
  ⟨bytesAt_range mem 8 _, bytesAt_range mem 8 _⟩

/-- The frames pass one marks for a region are those inside it, if its length is read for what it is. -/
theorem marks_iff {index : Int} (hindex : 0 ≤ index ∧ index < map.count) :
    Marks (bootInfo mem handoff kernelEnd) f index ↔ (256 ≤ f ∧ f < 262144) ∧ (map.region index).type = 1 ∧
      ¬ (map.region index).Misread ∧ (frameExtent f).Within (map.region index).extent := by
  obtain ⟨hbase, hlength, htype⟩ := map.field_run (s := fun _ => 0) hindex.1 hindex.2
  obtain ⟨hb, hl⟩ := map.region_range index
  rw [Marks, frameExtent, Extent.page_within_iff (by decide)]
  simp only [InWindow, clampedStop, bootInfo, valueOf_ok hbase, valueOf_ok hlength, valueOf_ok htype, Region.extent,
    Region.Misread, clampLength]
  generalize (map.region index).base = base at hb
  generalize (map.region index).length = length at hl
  rcases signed_cases hb.1 hb.2 with ⟨hsb, hb'⟩ | ⟨hsb, hb'⟩
  · rcases signed_cases hl.1 hl.2 with ⟨hsl, hl'⟩ | ⟨hsl, hl'⟩
    · rw [hsb, hsl]
      split <;> omega
    · omega
  · omega

/-- The frames pass two clears for a region are those that meet it, if its length is read for what it is. -/
theorem unmarks_iff {index : Int} (hindex : 0 ≤ index ∧ index < map.count) :
    Unmarks (bootInfo mem handoff kernelEnd) f index ↔ (0 ≤ f ∧ f < 262144) ∧ (map.region index).type ≠ 1 ∧
      ¬ (map.region index).Misread ∧ (frameExtent f).Meets (map.region index).extent := by
  obtain ⟨hbase, hlength, htype⟩ := map.field_run (s := fun _ => 0) hindex.1 hindex.2
  obtain ⟨hb, hl⟩ := map.region_range index
  by_cases hempty : (map.region index).length = 0
  · constructor
    · intro h
      have hpos := h.1.2.2.2
      simp only [bootInfo, valueOf_ok hlength, hempty] at hpos
      cases hpos
    · intro h
      refine absurd h.2.2.2 (Extent.not_meets_of_empty ?_)
      show (map.region index).base + (map.region index).length ≤ (map.region index).base
      omega
  have hnonempty : (map.region index).extent.start < (map.region index).extent.stop := by
    show (map.region index).base < (map.region index).base + (map.region index).length
    omega
  rw [Unmarks, frameExtent, Extent.page_meets_iff (by decide) hnonempty]
  simp only [InWindow, clampedStop, bootInfo, valueOf_ok hbase, valueOf_ok hlength, valueOf_ok htype, Region.extent,
    Region.Misread, clampLength]
  generalize (map.region index).base = base at hb
  generalize (map.region index).length = length at hl hempty
  rcases signed_cases hb.1 hb.2 with ⟨hsb, hb'⟩ | ⟨hsb, hb'⟩
  · rcases signed_cases hl.1 hl.2 with ⟨hsl, hl'⟩ | ⟨hsl, hl'⟩
    · rw [hsb, hsl]
      split <;> omega
    · omega
  · omega

/-- The block itself. -/
def blockExtent (_ : MemoryMap mem handoff) : Extent :=
  ⟨handoff.info.toNat, handoff.info.toNat + u32At mem handoff.info.toNat⟩

theorem inInfo_iff : InInfo (bootInfo mem handoff kernelEnd) f ↔
    (0 ≤ f ∧ f < 262144) ∧ (frameExtent f).Meets map.blockExtent := by
  have hplaced := map.placed
  have hlarge := map.large
  have hmapped := map.mapped
  have hnonempty : map.blockExtent.start < map.blockExtent.stop := by
    show (handoff.info.toNat : Int) < handoff.info.toNat + u32At mem handoff.info.toNat
    omega
  rw [InInfo, frameExtent, Extent.page_meets_iff (by decide) hnonempty]
  simp only [bootInfo, map.infoAddr, valueOf_ok map.infoSize, blockExtent]
  omega

end MemoryMap

/-! ## What is allocatable -/

/-- The frame may be handed out: it is inside an available region, and has no byte of another region, of the kernel or of
    the information block. -/
structure Allocatable (map : MemoryMap mem handoff) (kernelEnd f : Int) : Prop where
  window : 256 ≤ f ∧ f < 262144
  available : ∃ region, map.Has region ∧ region.type = 1 ∧ (frameExtent f).Within region.extent
  unreserved : ¬ ∃ region, map.Has region ∧ region.type ≠ 1 ∧ (frameExtent f).Meets region.extent
  kernel : ¬ (frameExtent f).Meets ⟨0, kernelEnd⟩
  block : ¬ (frameExtent f).Meets map.blockExtent

/-- The bitmaps and the counters are those of the memory map. -/
structure MapSafe (map : MemoryMap mem handoff) (kernelEnd : Int) (s : PhysState) : Prop where
  frames : ∀ f, s.usableGet f = 1 ∧ s.allocatedGet f = 0 ↔ Allocatable map kernelEnd f
  total : s.totalPages = (framesOf s.usable).card
  free : s.freePages = (framesOf s.usable \ framesOf s.allocated).card

/-- A frame that neither the kernel nor the information block has a byte of. -/
structure Clear (map : MemoryMap mem handoff) (kernelEnd f : Int) : Prop where
  window : 256 ≤ f ∧ f < 262144
  kernel : ¬ (frameExtent f).Meets ⟨0, kernelEnd⟩
  block : ¬ (frameExtent f).Meets map.blockExtent

/-- The regions of 2^63 bytes or more make no difference: where one is reserved, no frame it touches is available
    otherwise, and where one is available, every frame inside it is reserved or available otherwise. -/
structure Harmless (map : MemoryMap mem handoff) (kernelEnd : Int) : Prop where
  reserved : ∀ f, Clear map kernelEnd f → ∀ region, map.Has region → region.type ≠ 1 → region.Misread →
    (frameExtent f).Meets region.extent →
    (∃ other, map.Has other ∧ other.type ≠ 1 ∧ ¬ other.Misread ∧ (frameExtent f).Meets other.extent) ∨
      ¬ ∃ other, map.Has other ∧ other.type = 1 ∧ ¬ other.Misread ∧ (frameExtent f).Within other.extent
  available : ∀ f, Clear map kernelEnd f → ∀ region, map.Has region → region.type = 1 → region.Misread →
    (frameExtent f).Within region.extent →
    (∃ other, map.Has other ∧ other.type ≠ 1 ∧ (frameExtent f).Meets other.extent) ∨
      ∃ other, map.Has other ∧ other.type = 1 ∧ ¬ other.Misread ∧ (frameExtent f).Within other.extent

/-! ## Initialisation -/

theorem physInit_eq (boot : BootInfo) : physInit boot =
    if boot.regionCount ≤ 0 then none
    else some { laidOut boot with
      totalPages := (countPages (laidOut boot) 262144 0 (0, 0)).1
      freePages := (countPages (laidOut boot) 262144 0 (0, 0)).2
      cursor := 256 } := by
  unfold physInit laidOut
  split
  · rfl
  · simp only

theorem framesOf_usable (s : PhysState) :
    (Finset.Ico 0 262144).filter (fun f => s.usableGet f = 1) = framesOf s.usable := by
  unfold framesOf PhysState.usableGet
  rfl

/-- `phys_init` returns 1 with the bitmaps laid out and the usable frames counted. -/
theorem physInit_laidOut {boot : BootInfo} (h : physInit boot = some s) :
    (s.usable = (laidOut boot).usable ∧ s.allocated = (laidOut boot).allocated ∧ s.reserved = (laidOut boot).reserved) ∧
      s.totalPages = (framesOf s.usable).card := by
  have htotal : (countPages (laidOut boot) 262144 0 (0, 0)).1 = ((framesOf (laidOut boot).usable).card : Int) := by
    rw [countPages_total, ← framesOf_usable, Int.zero_add, Int.zero_add, Nat.cast_ofNat]
  rw [physInit_eq] at h
  split at h
  · cases h
  -- the counts are long loops, which must not be unfolded below
  obtain ⟨total, free, hs, hcounted⟩ : ∃ total free, s = { laidOut boot with
      totalPages := total, freePages := free, cursor := 256 } ∧
      total = (countPages (laidOut boot) 262144 0 (0, 0)).1 := by
    injection h with h
    exact ⟨_, _, h.symm, rfl⟩
  rw [hs]
  exact ⟨⟨rfl, rfl, rfl⟩, hcounted.trans htotal⟩

/-- The frames of the kernel are reserved. -/
theorem physInit_kernel {boot : BootInfo} (h : physInit boot = some s) (hf : InKernel boot f) : s.reservedGet f = 1 := by
  have hclaim : ∀ (s : PhysState) (g : Int), InBitmap g → ∀ f,
      (s.claim g).reservedGet f = if f = g then 1 else s.reservedGet f := fun s g hg f => bitmapGet_set s.reserved 1 hg f
  unfold InKernel at hf
  have hkernel : ∀ s : PhysState, (reserveKernel boot s).reservedGet f = 1 := by
    intro s
    have hrange := forFrames_range (s := s) (f := f) hclaim (Int.le_refl 0)
      (by omega : min ((boot.kernelEnd + 4096 - 1) / 4096) 262144 ≤ 262144)
    rw [Int.sub_zero, if_pos hf] at hrange
    exact hrange
  have hinfo : ∀ s : PhysState, s.reservedGet f = 1 → (reserveInfo boot s).reservedGet f = 1 := by
    intro s hs
    unfold reserveInfo
    split
    · rw [forFrames_range hclaim (by omega) (by omega), hs]
      split <;> rfl
    · exact hs
  rw [PhysState.reservedGet, (physInit_laidOut h).1.2.2]
  exact hinfo _ (hkernel _)

theorem physInit_free {boot : BootInfo} (h : physInit boot = some s) :
    s.freePages = (framesOf s.usable \ framesOf s.allocated).card := by
  obtain ⟨pool, hpool⟩ := physInit_represents h
  have husable : pool.usable = framesOf s.usable := by
    ext f
    rw [hpool.usable, mem_framesOf]
    rfl
  have htaken : pool.taken = framesOf s.allocated := by
    ext f
    rw [hpool.taken, mem_framesOf]
    rfl
  rw [hpool.counter, PagePool.free, husable, htaken]

/-- **What initialisation makes allocatable**: the frames inside an available region that meet no other one, as far as the
    lengths are read for what they are, less those of the kernel and of the information block. -/
theorem physInit_frames (map : MemoryMap mem handoff) (h : physInit (bootInfo mem handoff kernelEnd) = some s) (f : Int) :
    s.usableGet f = 1 ∧ s.allocatedGet f = 0 ↔ Clear map kernelEnd f ∧
      (∃ region, map.Has region ∧ region.type = 1 ∧ ¬ region.Misread ∧ (frameExtent f).Within region.extent) ∧
      ¬ ∃ region, map.Has region ∧ region.type ≠ 1 ∧ ¬ region.Misread ∧ (frameExtent f).Meets region.extent := by
  obtain ⟨⟨husable, hallocated, -⟩, -⟩ := physInit_laidOut h
  have hzero : s.allocatedGet f = 0 ↔ ¬ (laidOut (bootInfo mem handoff kernelEnd)).allocatedGet f = 1 := by
    rw [PhysState.allocatedGet, hallocated]
    rcases bitmapGet_cases (laidOut (bootInfo mem handoff kernelEnd)).allocated f with h0 | h1
    · simp [PhysState.allocatedGet, h0]
    · simp [PhysState.allocatedGet, h1]
  have hone : s.usableGet f = 1 ↔ (laidOut (bootInfo mem handoff kernelEnd)).usableGet f = 1 := by
    rw [PhysState.usableGet, husable]
    rfl
  rw [hzero, hone, laidOut_usable, laidOut_allocated, inKernel_iff, map.inInfo_iff]
  constructor
  · rintro ⟨⟨⟨index, hlisted, hmarks⟩, hunmarked⟩, hclaimed⟩
    rw [map.listed_iff] at hlisted
    rw [map.marks_iff hlisted] at hmarks
    obtain ⟨hwindow, htype, hread, hwithin⟩ := hmarks
    have hf : 0 ≤ f ∧ f < 262144 := by omega
    refine ⟨⟨hwindow, fun hk => hclaimed (.inl ⟨hf, hk⟩), fun hi => hclaimed (.inr ⟨hf, hi⟩)⟩,
      ⟨_, ⟨index, hlisted, rfl⟩, htype, hread, hwithin⟩, ?_⟩
    rintro ⟨_, ⟨other, hother, rfl⟩, htype', hread', hmeets⟩
    exact hunmarked ⟨other, map.listed_iff.mpr hother, (map.unmarks_iff hother).mpr ⟨hf, htype', hread', hmeets⟩⟩
  · rintro ⟨⟨hwindow, hkernel, hblock⟩, ⟨_, ⟨index, hindex, rfl⟩, htype, hread, hwithin⟩, hunreserved⟩
    refine ⟨⟨⟨index, map.listed_iff.mpr hindex, (map.marks_iff hindex).mpr ⟨hwindow, htype, hread, hwithin⟩⟩, ?_⟩, ?_⟩
    · rintro ⟨other, hlisted, hunmarks⟩
      have hother := map.listed_iff.mp hlisted
      obtain ⟨-, htype', hread', hmeets⟩ := (map.unmarks_iff hother).mp hunmarks
      exact hunreserved ⟨_, ⟨other, hother, rfl⟩, htype', hread', hmeets⟩
    · rintro (⟨-, hk⟩ | ⟨-, hi⟩)
      · exact hkernel hk
      · exact hblock hi

/-- `phys_init` returns 1 on the blocks with a memory map that has an entry. -/
theorem physInit_returns_iff : (∃ s, physInit (bootInfo mem handoff kernelEnd) = some s) ↔
    ∃ map : MemoryMap mem handoff, 0 < map.count := by
  have hcount : (∃ s, physInit (bootInfo mem handoff kernelEnd) = some s) ↔ 0 < valueOf (physMmapCount mem handoff) := by
    rw [physInit_eq]
    by_cases hnone : (bootInfo mem handoff kernelEnd).regionCount ≤ 0
    · rw [if_pos hnone]
      refine ⟨fun hs => ?_, fun hpos => ?_⟩
      · obtain ⟨s, hs⟩ := hs
        cases hs
      exact absurd hnone (Int.not_le.mpr hpos)
    · rw [if_neg hnone]
      exact ⟨fun _ => Int.not_le.mp hnone, fun _ => ⟨_, rfl⟩⟩
  rw [hcount]
  constructor
  · intro hpos
    cases hrun : physMmapCount mem handoff fun _ => 0 with
    | error e =>
        rw [valueOf, hrun] at hpos
        exact absurd hpos (Int.lt_irrefl 0)
    | ok p =>
        obtain ⟨entries, s⟩ := p
        rw [valueOf, hrun] at hpos
        have hsame := (physMmapCount_reads mem handoff).run hrun fun _ => 0
        obtain ⟨map⟩ := MemoryMap.of_count hsame hpos
        refine ⟨map, ?_⟩
        have hcount := map.count_run (s := fun _ => 0)
        rw [hsame] at hcount
        injection hcount with hcount
        injection hcount with hcount
        rw [← hcount]
        exact hpos
  · rintro ⟨map, hpos⟩
    rw [valueOf_ok map.count_run]
    exact hpos

/-- **Memory-map safety.** After `phys_init` has returned 1 the bitmaps and the counters are those of the memory map exactly
    when the regions of 2^63 bytes or more make no difference. -/
theorem physInit_mapSafe_iff (map : MemoryMap mem handoff)
    (h : physInit (bootInfo mem handoff kernelEnd) = some s) : MapSafe map kernelEnd s ↔ Harmless map kernelEnd := by
  constructor
  · intro hsafe
    constructor
    · intro f hclear region hregion htype hmisread hmeets
      by_contra hnone
      rw [not_or, not_not] at hnone
      have hallocatable := (hsafe.frames f).mp ((physInit_frames map h f).mpr ⟨hclear, hnone.2, hnone.1⟩)
      exact hallocatable.unreserved ⟨region, hregion, htype, hmeets⟩
    · intro f hclear region hregion htype hmisread hwithin
      by_contra hnone
      rw [not_or] at hnone
      have hframe := (hsafe.frames f).mpr
        ⟨hclear.window, ⟨region, hregion, htype, hwithin⟩, hnone.1, hclear.kernel, hclear.block⟩
      exact hnone.2 ((physInit_frames map h f).mp hframe).2.1
  · intro hharmless
    refine ⟨fun f => ?_, (physInit_laidOut h).2, physInit_free h⟩
    rw [physInit_frames map h f]
    constructor
    · rintro ⟨hclear, havailable, hunreserved⟩
      refine ⟨hclear.window, ?_, ?_, hclear.kernel, hclear.block⟩
      · obtain ⟨region, hregion, htype, -, hwithin⟩ := havailable
        exact ⟨region, hregion, htype, hwithin⟩
      · rintro ⟨region, hregion, htype, hmeets⟩
        by_cases hmisread : region.Misread
        · exact (hharmless.reserved f hclear region hregion htype hmisread hmeets).elim hunreserved
            fun hno => hno havailable
        · exact hunreserved ⟨region, hregion, htype, hmisread, hmeets⟩
    · rintro ⟨hwindow, ⟨region, hregion, htype, hwithin⟩, hunreserved, hkernel, hblock⟩
      have hclear : Clear map kernelEnd f := ⟨hwindow, hkernel, hblock⟩
      refine ⟨hclear, ?_, ?_⟩
      · by_cases hmisread : region.Misread
        · exact (hharmless.available f hclear region hregion htype hmisread hwithin).resolve_left hunreserved
        · exact ⟨region, hregion, htype, hmisread, hwithin⟩
      · rintro ⟨other, hother, htype', -, hmeets⟩
        exact hunreserved ⟨other, hother, htype', hmeets⟩

/-- A block whose memory map has 16 MiB of available memory at 1 MiB and a second entry. -/
def twoRegions (second : List UInt8) : Memory := memoryOf [(4096, [80, 0, 0, 0, 0, 0, 0, 0,
  6, 0, 0, 0, 64, 0, 0, 0, 24, 0, 0, 0, 0, 0, 0, 0,
  0, 0, 16, 0, 0, 0, 0, 0, 0, 0, 0, 1, 0, 0, 0, 0, 1, 0, 0, 0, 0, 0, 0, 0] ++ second ++ [0, 0, 0, 0, 8, 0, 0, 0])]

/-- Two KiB at 0x300800 are reserved. -/
def smallReserved : Memory :=
  twoRegions [0, 8, 48, 0, 0, 0, 0, 0, 0, 8, 0, 0, 0, 0, 0, 0, 2, 0, 0, 0, 0, 0, 0, 0]

def smallReservedMap : MemoryMap smallReserved bootAt4096 where
  tag := 8
  magic := rfl
  placed := by decide
  large := by decide
  mapped := by decide
  found := .here (by decide) (by decide)
  header := by decide
  inside := by decide
  wide := by decide

theorem smallReserved_regions {region : Region} (h : smallReservedMap.Has region) :
    region = ⟨1048576, 16777216, 1⟩ ∨ region = ⟨3147776, 2048, 2⟩ := by
  obtain ⟨index, ⟨hlow, hhigh⟩, rfl⟩ := h
  have hcount : smallReservedMap.count = 2 := by decide
  rw [hcount] at hhigh
  obtain rfl | rfl : index = 0 ∨ index = 1 := by omega
  · exact .inl (by decide)
  · exact .inr (by decide)

theorem smallReserved_safe : ∃ s, physInit (bootInfo smallReserved bootAt4096 1572864) = some s ∧
    MapSafe smallReservedMap 1572864 s := by
  obtain ⟨s, hs⟩ := physInit_returns_iff.mpr ⟨smallReservedMap, by decide⟩
  have hread : ∀ region, smallReservedMap.Has region → ¬ region.Misread := by
    intro region hregion
    rcases smallReserved_regions hregion with rfl | rfl
    · exact by decide
    · exact by decide
  refine ⟨s, hs, (physInit_mapSafe_iff smallReservedMap hs).mpr ⟨?_, ?_⟩⟩
  · exact fun _ _ region hregion _ hmisread => absurd hmisread (hread region hregion)
  · exact fun _ _ region hregion _ hmisread => absurd hmisread (hread region hregion)

/-- Everything from 0x200000 up to 2^64 is reserved. -/
def allReserved : Memory :=
  twoRegions [0, 0, 32, 0, 0, 0, 0, 0, 0, 0, 224, 255, 255, 255, 255, 255, 2, 0, 0, 0, 0, 0, 0, 0]

def allReservedMap : MemoryMap allReserved bootAt4096 where
  tag := 8
  magic := rfl
  placed := by decide
  large := by decide
  mapped := by decide
  found := .here (by decide) (by decide)
  header := by decide
  inside := by decide
  wide := by decide

theorem allReserved_unsafe : ¬ ∀ (mem : Memory) (handoff : Handoff) (kernelEnd : Int) (map : MemoryMap mem handoff)
    (s : PhysState), (∀ region, map.Has region → region.base + region.length ≤ 18446744073709551616) →
      physInit (bootInfo mem handoff kernelEnd) = some s → MapSafe map kernelEnd s := by
  intro hall
  have hcount : allReservedMap.count = 2 := by decide
  have hfirst : allReservedMap.region 0 = ⟨1048576, 16777216, 1⟩ := by decide
  have hsecond : allReservedMap.region 1 = ⟨2097152, 18446744073707454464, 2⟩ := by decide
  have hregions : ∀ region, allReservedMap.Has region →
      region = ⟨1048576, 16777216, 1⟩ ∨ region = ⟨2097152, 18446744073707454464, 2⟩ := by
    rintro region ⟨index, ⟨hlow, hhigh⟩, rfl⟩
    rw [hcount] at hhigh
    obtain rfl | rfl : index = 0 ∨ index = 1 := by omega
    · exact .inl hfirst
    · exact .inr hsecond
  obtain ⟨s, hs⟩ : ∃ s, physInit (bootInfo allReserved bootAt4096 1572864) = some s :=
    physInit_returns_iff.mpr ⟨allReservedMap, by rw [hcount]; decide⟩
  have hsafe : MapSafe allReservedMap 1572864 s := by
    refine hall _ _ _ allReservedMap s (fun region hregion => ?_) hs
    rcases hregions region hregion with rfl | rfl
    · decide
    · decide
  have hpage : ∀ e : Extent, e.start < e.stop → ((frameExtent 512).Meets e ↔
      e.start / 4096 ≤ 512 ∧ 512 < (e.stop + 4096 - 1) / 4096) := fun e he => Extent.page_meets_iff (by decide) he
  have hclear : Clear allReservedMap 1572864 512 := by
    refine ⟨by decide, ?_, ?_⟩
    · rw [hpage _ (by decide)]
      decide
    · rw [hpage _ (by decide)]
      decide
  have hframe : s.usableGet 512 = 1 ∧ s.allocatedGet 512 = 0 := by
    refine (physInit_frames allReservedMap hs 512).mpr ⟨hclear, ⟨_, ⟨0, by rw [hcount]; decide, hfirst⟩, rfl, ?_, ?_⟩, ?_⟩
    · decide
    · rw [frameExtent, Extent.page_within_iff (by decide)]
      decide
    · rintro ⟨region, hregion, htype, hread, -⟩
      rcases hregions region hregion with rfl | rfl
      · exact htype rfl
      · exact hread (by decide)
  refine ((hsafe.frames 512).mp hframe).unreserved ⟨_, ⟨1, by rw [hcount]; decide, hsecond⟩, by decide, ?_⟩
  rw [hpage _ (by decide)]
  decide

end Vnt.Os
