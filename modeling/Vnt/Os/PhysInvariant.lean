import Mathlib
import Vnt.Os.Phys
import Vnt.Lib.PagePool

/-!
# `Os.PhysInvariant` — the allocator is a page pool

The three bitmaps are the three sets of a `PagePool`, the counter is the number of its free pages, and every operation
is one of the pool's. What a search loop does is said once, for any stretch of frames.
-/

namespace Vnt.Os

open Lib

/-! ## Frames and pages -/

/-- The bitmaps spell the pool, and the slots are in step with it. -/
structure Represents (s : PhysState) (pool : PagePool Int) : Prop where
  usable : ∀ f, f ∈ pool.usable ↔ s.usableGet f = 1
  taken : ∀ f, f ∈ pool.taken ↔ s.allocatedGet f = 1
  pinned : ∀ f, f ∈ pool.pinned ↔ s.reservedGet f = 1
  high : ∀ f ∈ pool.usable, 256 ≤ f
  counter : s.freePages = pool.free.card
  cursor : 256 ≤ s.cursor ∧ s.cursor < 262144

variable {s s' : PhysState} {pool : PagePool Int} {f first count : Int}

theorem Represents.free_range (h : Represents s pool) (hf : f ∈ pool.free) : 256 ≤ f ∧ f < 262144 := by
  have hu := (PagePool.mem_free.mp hf).1
  exact ⟨h.high f hu, (inBitmap_of_get ((h.usable f).mp hu)).2⟩

theorem Represents.mem_free (h : Represents s pool) :
    f ∈ pool.free ↔ s.usableGet f = 1 ∧ s.allocatedGet f = 0 := by
  rw [PagePool.mem_free, h.usable, h.taken]
  rcases bitmapGet_cases s.allocated f with h0 | h1
  · simp [PhysState.allocatedGet, h0]
  · simp [PhysState.allocatedGet, h1]

theorem Represents.mem_returnable (h : Represents s pool) :
    f ∈ pool.returnable ↔ (s.usableGet f = 1 ∧ s.allocatedGet f = 1) ∧ s.reservedGet f ≠ 1 := by
  rw [PagePool.mem_returnable, h.usable, h.taken, h.pinned]

theorem Represents.withStart (h : Represents s pool) : s.withStart = s := by
  rw [PhysState.withStart, if_neg]
  have := h.cursor
  omega

/-- The bitmap after a stretch of frames has been written. -/
theorem forFrames_allocated (value : Int) (count : Nat) : ∀ {first : Int} {s : PhysState}, 0 ≤ first →
    first + count ≤ 262144 → ∃ b, forFrames (fun s frame => s.allocatedSet frame value) count first s =
      { s with allocated := b } ∧ ∀ g, physBitmapGet b g =
        if first ≤ g ∧ g < first + count then (if value = 0 then 0 else 1) else physBitmapGet s.allocated g := by
  induction count with
  | zero =>
      intro first s _ _
      refine ⟨s.allocated, rfl, fun g => ?_⟩
      rw [if_neg]
      omega
  | succ count ih =>
      intro first s hfirst hlast
      have hin : InBitmap first := ⟨hfirst, by omega⟩
      obtain ⟨b, hb, hread⟩ := ih (s := s.allocatedSet first value) (by omega : 0 ≤ first + 1) (by omega)
      refine ⟨b, hb, fun g => ?_⟩
      rw [hread g]
      by_cases hg : first + 1 ≤ g ∧ g < first + 1 + count
      · have hmem : first ≤ g ∧ g < first + ↑(count + 1) := by omega
        rw [if_pos hg, if_pos hmem]
      · rw [if_neg hg]
        show physBitmapGet (physBitmapSet s.allocated first value).2 g = _
        rw [bitmapGet_set s.allocated value hin]
        by_cases he : g = first
        · have hmem : first ≤ g ∧ g < first + ↑(count + 1) := by omega
          rw [if_pos he, if_pos hmem]
        · have hout : ¬(first ≤ g ∧ g < first + ↑(count + 1)) := by omega
          rw [if_neg he, if_neg hout]

/-! ## The pool's operations on the bitmaps -/

/-- A bitmap with the pages set. -/
theorem Represents.take (h : Represents s pool) {pages : Finset Int} {b : Bitmap} {c : Int}
    (hpages : pages ⊆ pool.free) (hb : ∀ g, physBitmapGet b g = 1 ↔ g ∈ pages ∨ physBitmapGet s.allocated g = 1)
    (hc : 256 ≤ c ∧ c < 262144) :
    Represents { s with allocated := b, freePages := s.freePages - pages.card, cursor := c } (pool.take pages) where
  usable := h.usable
  taken := by
    intro g
    show g ∈ pool.taken ∪ pages ↔ physBitmapGet b g = 1
    rw [Finset.mem_union, hb, h.taken]
    exact or_comm
  pinned := h.pinned
  high := h.high
  counter := by
    have hle := Finset.card_le_card hpages
    show s.freePages - pages.card = _
    rw [PagePool.card_free_take hpages, h.counter]
    omega
  cursor := hc

theorem Represents.hinted (h : Represents s pool) (hf : 256 ≤ f ∧ f < 262144) : Represents (s.hinted f) pool := by
  unfold PhysState.hinted
  split
  · exact ⟨h.usable, h.taken, h.pinned, h.high, h.counter, hf⟩
  · exact h

/-- A bitmap with the pages cleared. -/
theorem Represents.give (h : Represents s pool) {pages : Finset Int} {b : Bitmap} (hpages : pages ⊆ pool.returnable)
    (hb : ∀ g, physBitmapGet b g = 1 ↔ g ∉ pages ∧ physBitmapGet s.allocated g = 1) :
    Represents { s with allocated := b, freePages := s.freePages + pages.card } (pool.give pages hpages) where
  usable := h.usable
  taken := by
    intro g
    show g ∈ pool.taken \ pages ↔ physBitmapGet b g = 1
    rw [Finset.mem_sdiff, hb, h.taken]
    exact and_comm
  pinned := h.pinned
  high := h.high
  counter := by
    show s.freePages + pages.card = _
    rw [PagePool.card_free_give hpages, h.counter]
    push_cast
    rfl
  cursor := h.cursor

/-! ## Single pages -/

theorem bitmapGet_mark (b : Bitmap) (hf : InBitmap f) (g : Int) :
    physBitmapGet (physBitmapSet b f 1).2 g = 1 ↔ g ∈ ({f} : Finset Int) ∨ physBitmapGet b g = 1 := by
  rw [bitmapGet_set b 1 hf, Finset.mem_singleton]
  by_cases he : g = f
  · simp [he]
  · simp [he]

theorem bitmapGet_clear (b : Bitmap) (hf : InBitmap f) (g : Int) :
    physBitmapGet (physBitmapSet b f 0).2 g = 1 ↔ g ∉ ({f} : Finset Int) ∧ physBitmapGet b g = 1 := by
  rw [bitmapGet_set b 0 hf, Finset.mem_singleton]
  by_cases he : g = f
  · simp [he]
  · simp [he]

/-- A frame that is free is handed out, and any other leaves the state alone. -/
theorem physAllocTryFrame_spec (h : Represents s pool) (f : Int) :
    (f ∈ pool.free ∧ (physAllocTryFrame s f).1 = f * 4096 ∧ Represents (physAllocTryFrame s f).2 (pool.take {f})) ∨
      (f ∉ pool.free ∧ physAllocTryFrame s f = (0, s)) := by
  by_cases hf : f ∈ pool.free
  · obtain ⟨hlow, hhigh⟩ := h.free_range hf
    obtain ⟨hu, ha⟩ := h.mem_free.mp hf
    have hin : InBitmap f := ⟨by omega, hhigh⟩
    have hrun : physAllocTryFrame s f = (f * 4096, { s with
        allocated := (physBitmapSet s.allocated f 1).2
        freePages := s.freePages - 1
        cursor := if f + 1 ≥ 262144 then 256 else f + 1 }) := by
      rw [physAllocTryFrame, if_neg (by omega), if_neg (by simp [hu, ha]), if_neg (by simp [bitmapSet_fst _ _ hin])]
      rfl
    rw [hrun]
    refine .inl ⟨hf, rfl, ?_⟩
    have htake := h.take (Finset.singleton_subset_iff.mpr hf) (bitmapGet_mark s.allocated hin)
      (c := if f + 1 ≥ 262144 then 256 else f + 1) (by split <;> omega)
    rw [Finset.card_singleton] at htake
    exact htake
  · refine .inr ⟨hf, ?_⟩
    rw [h.mem_free] at hf
    unfold physAllocTryFrame
    split
    · rfl
    · rw [if_pos]
      by_contra hfree
      simp only [not_or, not_not] at hfree
      exact hf hfree

/-- **The search hands out a free frame of the stretch, or there is none.** -/
theorem scanFrames_spec (h : Represents s pool) (count : Nat) : ∀ first : Int,
    (∃ f ∈ pool.free, (scanFrames count first s).1 = f * 4096 ∧
      Represents (scanFrames count first s).2 (pool.take {f})) ∨
    (scanFrames count first s = (0, s) ∧ ∀ f, first ≤ f → f < first + count → f ∉ pool.free) := by
  induction count with
  | zero => exact fun first => .inr ⟨rfl, fun f h₁ h₂ => by omega⟩
  | succ count ih =>
      intro first
      rcases physAllocTryFrame_spec h first with ⟨hf, hpage, hs⟩ | ⟨hf, hrun⟩
      · obtain ⟨hlow, -⟩ := h.free_range hf
        have hstop : scanFrames (count + 1) first s = physAllocTryFrame s first := by
          rw [scanFrames]
          generalize physAllocTryFrame s first = p at hpage
          obtain ⟨page, s'⟩ := p
          have hne : page ≠ 0 := by
            have : page = first * 4096 := hpage
            omega
          simp only [if_pos hne]
        rw [hstop]
        exact .inl ⟨first, hf, hpage, hs⟩
      · have hgo : scanFrames (count + 1) first s = scanFrames count (first + 1) s := by
          rw [scanFrames, hrun]
          rfl
        rw [hgo]
        refine (ih (first + 1)).imp_right fun ⟨hnone, hall⟩ => ⟨hnone, fun f h₁ h₂ => ?_⟩
        by_cases he : f = first
        · exact he ▸ hf
        · exact hall f (by omega) (by omega)

/-- **`phys_alloc_page`** hands out a free frame, and returns 0 only when there is none. -/
theorem physAllocPage_spec (h : Represents s pool) :
    (∃ f ∈ pool.free, (physAllocPage s).1 = f * 4096 ∧ Represents (physAllocPage s).2 (pool.take {f})) ∨
      (physAllocPage s = (0, s) ∧ pool.free = ∅) := by
  obtain ⟨hlow, hhigh⟩ := h.cursor
  have hrun : physAllocPage s =
      if (scanFrames (262144 - s.cursor).toNat s.cursor s).1 ≠ 0 then scanFrames (262144 - s.cursor).toNat s.cursor s
      else scanFrames (s.cursor - 256).toNat 256 (scanFrames (262144 - s.cursor).toNat s.cursor s).2 := by
    rw [physAllocPage, h.withStart]
  rw [hrun]
  rcases scanFrames_spec h (262144 - s.cursor).toNat s.cursor with ⟨f, hf, hpage, hs⟩ | ⟨hnone, hall⟩
  · obtain ⟨hf256, -⟩ := h.free_range hf
    rw [if_pos (by omega)]
    exact .inl ⟨f, hf, hpage, hs⟩
  · rw [hnone, if_neg (by simp)]
    refine (scanFrames_spec h (s.cursor - 256).toNat 256).imp_right fun ⟨hnone', hall'⟩ => ⟨hnone', ?_⟩
    rw [Finset.eq_empty_iff_forall_notMem]
    intro f hf
    obtain ⟨h₁, h₂⟩ := h.free_range hf
    by_cases hc : f < s.cursor
    · exact hall' f h₁ (by omega) hf
    · exact hall f (by omega) (by omega) hf

/-! ## Runs -/

theorem framesAreFree_iff (h : Represents s pool) (count : Nat) : ∀ first : Int,
    framesAreFree s count first = 1 ↔ ∀ f, first ≤ f → f < first + count → f ∈ pool.free := by
  induction count with
  | zero => exact fun first => ⟨fun _ f h₁ h₂ => by omega, fun _ => rfl⟩
  | succ count ih =>
      intro first
      have hfree : first ∈ pool.free ↔
          ¬(s.usableGet first ≠ 1 ∨ s.allocatedGet first ≠ 0 ∨ s.reservedGet first ≠ 0) := by
        simp only [not_or, not_not]
        constructor
        · intro hf
          obtain ⟨hu, ha⟩ := h.mem_free.mp hf
          have hp := PagePool.not_pinned_of_free hf
          rw [h.pinned] at hp
          exact ⟨hu, ha, (bitmapGet_cases s.reserved first).resolve_right hp⟩
        · exact fun hf => h.mem_free.mpr ⟨hf.1, hf.2.1⟩
      rw [framesAreFree]
      by_cases hf : first ∈ pool.free
      · rw [if_neg (hfree.mp hf), ih]
        constructor
        · intro hall f h₁ h₂
          by_cases he : f = first
          · exact he ▸ hf
          · exact hall f (by omega) (by omega)
        · exact fun hall f h₁ h₂ => hall f (by omega) (by omega)
      · rw [if_pos (by by_contra hno; exact hf (hfree.mpr hno))]
        exact ⟨fun h0 => absurd h0 (by decide), fun hall => absurd (hall first (by omega) (by omega)) hf⟩

/-- The frames of a run. -/
noncomputable def run (first count : Int) : Finset Int := Finset.Ico first (first + count)

theorem run_subset_iff {pages : Finset Int} : run first count ⊆ pages ↔ ∀ f, first ≤ f → f < first + count → f ∈ pages := by
  simp [run, Finset.subset_iff]

theorem card_run (hcount : 0 ≤ count) : ((run first count).card : Int) = count := by
  rw [run, Int.card_Ico]
  omega

theorem physRangeIsFree_iff (h : Represents s pool) (hcount : 0 < count) :
    physRangeIsFree s first count = 1 ↔ run first count ⊆ pool.free := by
  rw [run_subset_iff]
  unfold physRangeIsFree
  by_cases hin : count ≤ 0 ∨ first < 256 ∨ first ≥ 262144
  · rw [if_pos hin]
    refine ⟨fun h0 => absurd h0 (by decide), fun hall => ?_⟩
    have := h.free_range (hall first (by omega) (by omega))
    omega
  · rw [if_neg hin]
    by_cases hfit : count > 262144 - first
    · rw [if_pos hfit]
      refine ⟨fun h0 => absurd h0 (by decide), fun hall => ?_⟩
      have := h.free_range (hall (first + count - 1) (by omega) (by omega))
      omega
    · rw [if_neg hfit, framesAreFree_iff h]
      have hcast : ((count.toNat : Nat) : Int) = count := by omega
      rw [hcast]

/-- A free run is taken. -/
theorem takeRun_spec (h : Represents s pool) (hcount : 0 < count) (hrun : run first count ⊆ pool.free) :
    256 ≤ first ∧ Represents (takeRun s first count) (pool.take (run first count)) := by
  have hmem := run_subset_iff.mp hrun
  obtain ⟨hlow, -⟩ := h.free_range (hmem first (by omega) (by omega))
  obtain ⟨-, hhigh⟩ := h.free_range (hmem (first + count - 1) (by omega) (by omega))
  refine ⟨hlow, ?_⟩
  obtain ⟨b, hb, hread⟩ := forFrames_allocated 1 count.toNat (s := s) (by omega : 0 ≤ first) (by omega)
  have htake := h.take (b := b) (c := if first + count ≥ 262144 then 256 else first + count) hrun ?_
    (by split <;> omega)
  · rw [card_run (by omega)] at htake
    rw [takeRun, hb]
    exact htake
  · intro g
    rw [hread g, run, Finset.mem_Ico]
    have hcast : ((count.toNat : Nat) : Int) = count := by omega
    rw [hcast]
    by_cases hg : first ≤ g ∧ g < first + count
    · simp [hg]
    · simp [hg]

/-- **The search hands out a free run among the positions, or there is none.** -/
theorem scanRuns_spec (h : Represents s pool) (hcount : 0 < count) (tries : Nat) : ∀ first : Int,
    (∃ r, 256 ≤ r ∧ run r count ⊆ pool.free ∧ (scanRuns count tries first s).1 = r * 4096 ∧
      Represents (scanRuns count tries first s).2 (pool.take (run r count))) ∨
    (scanRuns count tries first s = (0, s) ∧ ∀ r, first ≤ r → r < first + tries → ¬ run r count ⊆ pool.free) := by
  induction tries with
  | zero => exact fun first => .inr ⟨rfl, fun r h₁ h₂ => by omega⟩
  | succ tries ih =>
      intro first
      rw [scanRuns]
      by_cases hfree : run first count ⊆ pool.free
      · obtain ⟨hlow, hs⟩ := takeRun_spec h hcount hfree
        rw [if_pos ((physRangeIsFree_iff h hcount).mpr hfree)]
        exact .inl ⟨first, hlow, hfree, rfl, hs⟩
      · rw [if_neg fun hone => hfree ((physRangeIsFree_iff h hcount).mp hone)]
        refine (ih (first + 1)).imp_right fun ⟨hnone, hall⟩ => ⟨hnone, fun r h₁ h₂ => ?_⟩
        by_cases he : r = first
        · exact he ▸ hfree
        · exact hall r (by omega) (by omega)

/-- **`phys_alloc_contiguous_pages`** hands out a free run, and returns 0 only when there is none. -/
theorem physAllocContiguousPages_spec (h : Represents s pool) (count : Int) :
    (∃ r, 0 < count ∧ 256 ≤ r ∧ run r count ⊆ pool.free ∧ (physAllocContiguousPages s count).1 = r * 4096 ∧
      Represents (physAllocContiguousPages s count).2 (pool.take (run r count))) ∨
    (physAllocContiguousPages s count = (0, s) ∧ (0 < count → count ≤ 261888 → ∀ r, ¬ run r count ⊆ pool.free)) := by
  obtain ⟨hlow, hhigh⟩ := h.cursor
  by_cases hin : count ≤ 0 ∨ count > 262144 - 256
  · rw [physAllocContiguousPages, if_pos hin]
    exact .inr ⟨rfl, fun h₁ h₂ => by omega⟩
  · have hcount : 0 < count := by omega
    have hcode : physAllocContiguousPages s count =
        if (scanRuns count (262144 - count + 1 - s.cursor).toNat s.cursor s).1 ≠ 0 then
          scanRuns count (262144 - count + 1 - s.cursor).toNat s.cursor s
        else scanRuns count (min s.cursor (262144 - count + 1) - 256).toNat 256
          (scanRuns count (262144 - count + 1 - s.cursor).toNat s.cursor s).2 := by
      rw [physAllocContiguousPages, if_neg hin, h.withStart]
    rw [hcode]
    rcases scanRuns_spec h hcount (262144 - count + 1 - s.cursor).toNat s.cursor with
      ⟨r, hr, hfree, hpage, hs⟩ | ⟨hnone, hall⟩
    · rw [if_pos (by omega)]
      exact .inl ⟨r, hcount, hr, hfree, hpage, hs⟩
    · rw [hnone, if_neg (by simp)]
      rcases scanRuns_spec h hcount (min s.cursor (262144 - count + 1) - 256).toNat 256 with
        ⟨r, hr, hfree, hpage, hs⟩ | ⟨hnone', hall'⟩
      · exact .inl ⟨r, hcount, hr, hfree, hpage, hs⟩
      · refine .inr ⟨hnone', fun _ _ r hfree => ?_⟩
        have hmem := run_subset_iff.mp hfree
        have h₁ := h.free_range (hmem r (by omega) (by omega))
        have h₂ := h.free_range (hmem (r + count - 1) (by omega) (by omega))
        by_cases hc : r < s.cursor
        · exact hall' r h₁.1 (by omega) hfree
        · exact hall r (by omega) (by omega) hfree

end Vnt.Os
