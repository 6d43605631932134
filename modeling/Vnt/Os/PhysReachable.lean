import Vnt.Os.PhysInvariant

/-!
# `Os.PhysReachable` — the allocator over whole runs

The releasing operations, the state that `phys_init` leaves, and the invariant in every state that any sequence of
operations reaches from it.
-/

namespace Vnt.Os

open Lib

variable {s s' : PhysState} {pool : PagePool Int} {f first count : Int}

/-! ## Release -/

/-- An address whose page the three single-page tests look at. -/
theorem page_address {address : Int} (h : ¬(address < 256 * 4096 ∨ address ≥ 1073741824))
    (haligned : ¬ address / 4096 * 4096 ≠ address) :
    256 ≤ address / 4096 ∧ address / 4096 < 262144 ∧ address = address / 4096 * 4096 := by omega

/-- **`phys_free_page`** takes back a page that is not reserved, or leaves the state alone. -/
theorem physFreePage_spec (h : Represents s pool) (address : Int) :
    (∃ (f : Int) (hf : {f} ⊆ pool.returnable), address = f * 4096 ∧ (physFreePage s address).1 = 1 ∧
      Represents (physFreePage s address).2 (pool.give {f} hf)) ∨ physFreePage s address = (0, s) := by
  by_cases hrange : address < 256 * 4096 ∨ address ≥ 1073741824
  · rw [physFreePage, if_pos hrange]
    exact .inr rfl
  by_cases haligned : address / 4096 * 4096 ≠ address
  · rw [physFreePage, if_neg hrange, if_pos haligned]
    exact .inr rfl
  by_cases hheld : s.usableGet (address / 4096) ≠ 1 ∨ s.allocatedGet (address / 4096) ≠ 1
  · rw [physFreePage, if_neg hrange, if_neg haligned, if_pos hheld]
    exact .inr rfl
  by_cases hreserved : s.reservedGet (address / 4096) = 1
  · rw [physFreePage, if_neg hrange, if_neg haligned, if_neg hheld, if_pos hreserved]
    exact .inr rfl
  obtain ⟨hlow, hhigh, haddress⟩ := page_address hrange haligned
  rw [not_or, not_not, not_not] at hheld
  have hmem : {address / 4096} ⊆ pool.returnable :=
    Finset.singleton_subset_iff.mpr (h.mem_returnable.mpr ⟨hheld, hreserved⟩)
  refine .inl ⟨address / 4096, hmem, haddress, ?_⟩
  rw [physFreePage, if_neg hrange, if_neg haligned, if_neg (by simp [hheld]), if_neg hreserved]
  refine ⟨rfl, Represents.hinted ?_ ⟨hlow, hhigh⟩⟩
  have hgive := h.give hmem (bitmapGet_clear s.allocated ⟨by omega, hhigh⟩)
  rw [Finset.card_singleton] at hgive
  exact hgive

theorem framesCanBeFreed_iff (h : Represents s pool) (count : Nat) : ∀ first : Int,
    framesCanBeFreed s count first = true ↔ ∀ f, first ≤ f → f < first + count → f ∈ pool.returnable := by
  induction count with
  | zero => exact fun first => ⟨fun _ f h₁ h₂ => by omega, fun _ => rfl⟩
  | succ count ih =>
      intro first
      rw [framesCanBeFreed]
      by_cases hf : s.usableGet first ≠ 1 ∨ s.allocatedGet first ≠ 1 ∨ s.reservedGet first = 1
      · rw [if_pos hf]
        refine ⟨fun h0 => absurd h0 (by decide), fun hall => ?_⟩
        have hmem := h.mem_returnable.mp (hall first (by omega) (by omega))
        tauto
      · rw [if_neg hf, ih]
        simp only [not_or, not_not] at hf
        have hmem := h.mem_returnable.mpr ⟨⟨hf.1, hf.2.1⟩, hf.2.2⟩
        constructor
        · intro hall f h₁ h₂
          by_cases he : f = first
          · exact he ▸ hmem
          · exact hall f (by omega) (by omega)
        · exact fun hall f h₁ h₂ => hall f (by omega) (by omega)

/-- **`phys_free_contiguous_pages`** takes back a whole run, or leaves the state alone. -/
theorem physFreeContiguousPages_spec (h : Represents s pool) (address count : Int) :
    (∃ (r : Int) (hr : run r count ⊆ pool.returnable), 0 < count ∧ address = r * 4096 ∧
      (physFreeContiguousPages s address count).1 = 1 ∧
      Represents (physFreeContiguousPages s address count).2 (pool.give (run r count) hr)) ∨
    physFreeContiguousPages s address count = (0, s) := by
  by_cases hrange : count ≤ 0 ∨ address < 256 * 4096 ∨ address ≥ 1073741824
  · rw [physFreeContiguousPages, if_pos hrange]
    exact .inr rfl
  by_cases haligned : address % 4096 ≠ 0
  · rw [physFreeContiguousPages, if_neg hrange, if_pos haligned]
    exact .inr rfl
  by_cases hfit : count > 262144 - address / 4096
  · rw [physFreeContiguousPages, if_neg hrange, if_neg haligned, if_pos hfit]
    exact .inr rfl
  by_cases hheld : framesCanBeFreed s count.toNat (address / 4096) = false
  · rw [physFreeContiguousPages, if_neg hrange, if_neg haligned, if_neg hfit, if_pos hheld]
    exact .inr rfl
  have hcast : ((count.toNat : Nat) : Int) = count := by omega
  have hmem : run (address / 4096) count ⊆ pool.returnable := by
    rw [run_subset_iff]
    have hall := (framesCanBeFreed_iff h count.toNat (address / 4096)).mp (Bool.of_not_eq_false hheld)
    rwa [hcast] at hall
  refine .inl ⟨address / 4096, hmem, by omega, by omega, ?_⟩
  obtain ⟨b, hb, hread⟩ := forFrames_allocated 0 count.toNat (s := s) (by omega : 0 ≤ address / 4096) (by omega)
  rw [physFreeContiguousPages, if_neg hrange, if_neg haligned, if_neg hfit, if_neg hheld, hb]
  refine ⟨rfl, Represents.hinted ?_ (by omega)⟩
  have hgive := h.give hmem (b := b) ?_
  · rw [card_run (by omega)] at hgive
    exact hgive
  · intro g
    rw [hread g, run, Finset.mem_Ico, hcast]
    by_cases hg : address / 4096 ≤ g ∧ g < address / 4096 + count
    · simp [hg]
    · simp [hg]

/-- **`phys_reserve_allocated_page`** pins a page that is allocated, or leaves the state alone. -/
theorem physReserveAllocatedPage_spec (h : Represents s pool) (address : Int) :
    (∃ (f : Int) (hf : f ∈ pool.taken), f ∈ pool.usable ∧ address = f * 4096 ∧
      (physReserveAllocatedPage s address).1 = 1 ∧
      Represents (physReserveAllocatedPage s address).2 (pool.pin f hf)) ∨
    physReserveAllocatedPage s address = (0, s) := by
  by_cases hrange : address < 256 * 4096 ∨ address ≥ 1073741824
  · rw [physReserveAllocatedPage, if_pos hrange]
    exact .inr rfl
  by_cases haligned : address / 4096 * 4096 ≠ address
  · rw [physReserveAllocatedPage, if_neg hrange, if_pos haligned]
    exact .inr rfl
  by_cases hheld : s.usableGet (address / 4096) ≠ 1 ∨ s.allocatedGet (address / 4096) ≠ 1
  · rw [physReserveAllocatedPage, if_neg hrange, if_neg haligned, if_pos hheld]
    exact .inr rfl
  obtain ⟨hlow, hhigh, haddress⟩ := page_address hrange haligned
  rw [not_or, not_not, not_not] at hheld
  refine .inl ⟨address / 4096, (h.taken _).mpr hheld.2, (h.usable _).mpr hheld.1, haddress, ?_⟩
  rw [physReserveAllocatedPage, if_neg hrange, if_neg haligned, if_neg (by simp [hheld])]
  refine ⟨rfl, h.usable, h.taken, fun g => ?_, h.high, h.counter, h.cursor⟩
  show g ∈ insert (address / 4096) pool.pinned ↔
    physBitmapGet (physBitmapSet s.reserved (address / 4096) 1).2 g = 1
  rw [bitmapGet_mark s.reserved ⟨by omega, hhigh⟩, Finset.mem_insert, Finset.mem_singleton, h.pinned]
  rfl

/-! ## Initialisation -/

/-- What holds of the bitmaps all through `phys_init`. -/
structure Laid (s : PhysState) : Prop where
  high : ∀ f, s.usableGet f = 1 → 256 ≤ f
  reserved : ∀ f, s.reservedGet f = 1 → s.allocatedGet f = 1

theorem forFrames_keeps {P : PhysState → Prop} {set : PhysState → Int → PhysState} (count : Nat) :
    ∀ {first : Int} {s : PhysState}, (∀ s f, first ≤ f → f < first + count → P s → P (set s f)) → P s →
      P (forFrames set count first s) := by
  induction count with
  | zero => exact fun _ hs => hs
  | succ count ih =>
      intro first s hset hs
      exact ih (fun s f h₁ h₂ => hset s f (by omega) (by omega)) (hset s first (by omega) (by omega) hs)

theorem forRegions_keeps {P : PhysState → Prop} {pass : Int → PhysState → PhysState}
    (hpass : ∀ region s, P s → P (pass region s)) (count : Nat) :
    ∀ {region : Int} {s : PhysState}, P s → P (forRegions pass count region s) := by
  induction count with
  | zero => exact fun hs => hs
  | succ count ih => exact fun hs => ih (hpass _ _ hs)

namespace Laid

theorem usableSet (h : Laid s) {value : Int} (hf : InBitmap f) (hvalue : value = 0 ∨ 256 ≤ f) :
    Laid (s.usableSet f value) where
  high := by
    intro g hg
    have hg' : physBitmapGet (physBitmapSet s.usable f value).2 g = 1 := hg
    rw [bitmapGet_set s.usable value hf] at hg'
    by_cases he : g = f
    · rcases hvalue with rfl | hlow
      · simp [he] at hg'
      · exact he ▸ hlow
    · rw [if_neg he] at hg'
      exact h.high g hg'
  reserved := h.reserved

theorem claim (h : Laid s) (hf : InBitmap f) : Laid (s.claim f) where
  high := h.high
  reserved := by
    intro g hg
    have hg' : physBitmapGet (physBitmapSet s.reserved f 1).2 g = 1 := hg
    show physBitmapGet (physBitmapSet s.allocated f 1).2 g = 1
    rw [bitmapGet_mark _ hf] at hg' ⊢
    exact hg'.imp_right (h.reserved g)

theorem entry : Laid .entry := by
  have hzero : ∀ f, physBitmapGet (fun _ => 0) f ≠ 1 := by
    intro f hf
    rw [bitmapGet_eq _ (inBitmap_of_get hf)] at hf
    simp [bitOf] at hf
  exact ⟨fun f hf => absurd hf (hzero f), fun f hf => absurd hf (hzero f)⟩

theorem markUsable (boot : BootInfo) (region : Int) (s : PhysState) (h : Laid s) : Laid (markUsable boot region s) := by
  unfold Os.markUsable
  split
  · refine forFrames_keeps _ (fun s f h₁ h₂ hs => hs.usableSet ⟨?_, ?_⟩ (.inr ?_)) h <;> omega
  · exact h

theorem unmarkTouched (boot : BootInfo) (region : Int) (s : PhysState) (h : Laid s) :
    Laid (unmarkTouched boot region s) := by
  unfold Os.unmarkTouched
  split
  · refine forFrames_keeps _ (fun s f h₁ h₂ hs => hs.usableSet ⟨?_, ?_⟩ (.inl rfl)) h <;> omega
  · exact h

theorem reserveKernel (boot : BootInfo) (h : Laid s) : Laid (reserveKernel boot s) := by
  refine forFrames_keeps _ (fun s f h₁ h₂ hs => hs.claim ⟨?_, ?_⟩) h <;> omega

theorem reserveInfo (boot : BootInfo) (h : Laid s) : Laid (reserveInfo boot s) := by
  unfold Os.reserveInfo
  split
  · refine forFrames_keeps _ (fun s f h₁ h₂ hs => hs.claim ⟨?_, ?_⟩) h <;> omega
  · exact h

end Laid

/-- The frames of a bitmap. -/
noncomputable def framesOf (b : Bitmap) : Finset Int := (Finset.Ico 0 262144).filter fun f => physBitmapGet b f = 1

theorem mem_framesOf {b : Bitmap} : f ∈ framesOf b ↔ physBitmapGet b f = 1 := by
  rw [framesOf, Finset.mem_filter, Finset.mem_Ico]
  exact ⟨fun h => h.2, fun h => ⟨inBitmap_of_get h, h⟩⟩

theorem card_filter_Ico (p : Int → Prop) [DecidablePred p] (first : Int) (count : Nat) :
    ((Finset.Ico first (first + ↑(count + 1))).filter p).card =
      (if p first then 1 else 0) + ((Finset.Ico (first + 1) (first + 1 + count)).filter p).card := by
  have hsplit : Finset.Ico first (first + ↑(count + 1)) = insert first (Finset.Ico (first + 1) (first + 1 + count)) := by
    ext g
    simp only [Finset.mem_Ico, Finset.mem_insert]
    omega
  rw [hsplit, Finset.filter_insert]
  split
  · rw [Finset.card_insert_of_notMem (by simp), Nat.add_comm]
  · rw [Nat.zero_add]

/-- The loop that counts, from `first` on. -/
theorem countPages_free (s : PhysState) (count : Nat) : ∀ (first total free : Int),
    (countPages s count first (total, free)).2 = free + ((Finset.Ico first (first + count)).filter
      fun f => f ≥ 256 ∧ s.usableGet f = 1 ∧ s.allocatedGet f = 0).card := by
  induction count with
  | zero => intro first total free; simp [countPages]
  | succ count ih =>
      intro first total free
      rw [card_filter_Ico, countPages]
      by_cases hu : s.usableGet first = 1
      · by_cases hfree : first ≥ 256 ∧ s.allocatedGet first = 0
        · rw [if_pos hu, if_pos hfree, if_pos ⟨hfree.1, hu, hfree.2⟩, ih]
          push_cast
          omega
        · rw [if_pos hu, if_neg hfree, if_neg (by tauto), ih, Nat.zero_add]
      · rw [if_neg hu, if_neg (by tauto), ih, Nat.zero_add]

/-- The pool of a state whose bitmaps are laid out. -/
noncomputable def Laid.toPool (h : Laid s) : PagePool Int where
  usable := framesOf s.usable
  taken := framesOf s.allocated
  pinned := framesOf s.reserved
  pinned_taken := fun f hp _ => mem_framesOf.mpr (h.reserved f (mem_framesOf.mp hp))

/-- What the counting loop counts is the pool's free pages. -/
theorem Laid.counted (h : Laid s) : ((Finset.Ico 0 262144).filter
    fun f => f ≥ 256 ∧ s.usableGet f = 1 ∧ s.allocatedGet f = 0) = h.toPool.free := by
  ext f
  rw [PagePool.mem_free, Finset.mem_filter, Finset.mem_Ico]
  show _ ↔ f ∈ framesOf s.usable ∧ f ∉ framesOf s.allocated
  rw [mem_framesOf, mem_framesOf]
  constructor
  · rintro ⟨-, -, hu, ha⟩
    exact ⟨hu, fun h1 => absurd (ha.symm.trans h1) (by decide)⟩
  · rintro ⟨hu, ha⟩
    exact ⟨inBitmap_of_get hu, h.high f hu, hu, (bitmapGet_cases s.allocated f).resolve_right ha⟩

theorem Laid.represents (h : Laid s) (total : Int) {free : Int} (hfree : free = h.toPool.free.card) :
    Represents { s with totalPages := total, freePages := free, cursor := 256 } h.toPool where
  usable _ := mem_framesOf
  taken _ := mem_framesOf
  pinned _ := mem_framesOf
  high f hf := h.high f (mem_framesOf.mp hf)
  counter := hfree
  cursor := ⟨Int.le_refl _, (by decide : (256 : Int) < 262144)⟩

/-- **`phys_init` leaves a pool.** -/
theorem physInit_represents {boot : BootInfo} (h : physInit boot = some s) : ∃ pool, Represents s pool := by
  unfold physInit at h
  split at h
  · cases h
  obtain ⟨laid, hlaid⟩ : ∃ laid, reserveInfo boot (reserveKernel boot (forRegions (unmarkTouched boot)
      boot.regionCount.toNat 0 (forRegions (markUsable boot) boot.regionCount.toNat 0 .entry))) = laid := ⟨_, rfl⟩
  have hl : Laid laid := by
    rw [← hlaid]
    refine Laid.reserveInfo boot (Laid.reserveKernel boot (forRegions_keeps (Laid.unmarkTouched boot) _ ?_))
    exact forRegions_keeps (Laid.markUsable boot) _ Laid.entry
  have hfree : (countPages laid 262144 0 (0, 0)).2 = hl.toPool.free.card := by
    rw [countPages_free, Int.zero_add, ← hl.counted]
    rfl
  simp only [hlaid, Option.some.injEq] at h
  rw [← h]
  exact ⟨hl.toPool, hl.represents _ hfree⟩

/-! ## Runs -/

/-- The operations of the allocator, with any arguments. -/
inductive PhysOp where
  | allocPage
  | allocContiguousPages (count : Int)
  | freePage (address : Int)
  | freeContiguousPages (address count : Int)
  | reserveAllocatedPage (address : Int)

def PhysOp.run (s : PhysState) : PhysOp → Int × PhysState
  | .allocPage => physAllocPage s
  | .allocContiguousPages count => physAllocContiguousPages s count
  | .freePage address => physFreePage s address
  | .freeContiguousPages address count => physFreeContiguousPages s address count
  | .reserveAllocatedPage address => physReserveAllocatedPage s address

/-- The states a run of operations goes through. -/
inductive PhysReachable (boot : BootInfo) : PhysState → Prop where
  | init {s : PhysState} : physInit boot = some s → PhysReachable boot s
  | step {s : PhysState} (op : PhysOp) : PhysReachable boot s → PhysReachable boot (op.run s).2

/-- What an operation returns and does, in terms of the pool: pages go out that were free, come back that are not
    pinned, and a result of 0 changes nothing. -/
def PhysOp.Keeps (pool : PagePool Int) (s : PhysState) : PhysOp → Prop
  | .allocPage =>
      (∃ f ∈ pool.free, (physAllocPage s).1 = f * 4096 ∧ Represents (physAllocPage s).2 (pool.take {f})) ∨
        (physAllocPage s = (0, s) ∧ pool.free = ∅)
  | .allocContiguousPages count =>
      (∃ r, 0 < count ∧ 256 ≤ r ∧ Os.run r count ⊆ pool.free ∧ (physAllocContiguousPages s count).1 = r * 4096 ∧
        Represents (physAllocContiguousPages s count).2 (pool.take (Os.run r count))) ∨
      (physAllocContiguousPages s count = (0, s) ∧
        (0 < count → count ≤ 261888 → ∀ r, ¬ Os.run r count ⊆ pool.free))
  | .freePage address =>
      (∃ (f : Int) (hf : {f} ⊆ pool.returnable), address = f * 4096 ∧ (physFreePage s address).1 = 1 ∧
        Represents (physFreePage s address).2 (pool.give {f} hf)) ∨ physFreePage s address = (0, s)
  | .freeContiguousPages address count =>
      (∃ (r : Int) (hr : Os.run r count ⊆ pool.returnable), 0 < count ∧ address = r * 4096 ∧
        (physFreeContiguousPages s address count).1 = 1 ∧
        Represents (physFreeContiguousPages s address count).2 (pool.give (Os.run r count) hr)) ∨
      physFreeContiguousPages s address count = (0, s)
  | .reserveAllocatedPage address =>
      (∃ (f : Int) (hf : f ∈ pool.taken), f ∈ pool.usable ∧ address = f * 4096 ∧
        (physReserveAllocatedPage s address).1 = 1 ∧
        Represents (physReserveAllocatedPage s address).2 (pool.pin f hf)) ∨
      physReserveAllocatedPage s address = (0, s)

theorem PhysOp.keeps (h : Represents s pool) (op : PhysOp) : op.Keeps pool s := by
  cases op with
  | allocPage => exact physAllocPage_spec h
  | allocContiguousPages count => exact physAllocContiguousPages_spec h count
  | freePage address => exact physFreePage_spec h address
  | freeContiguousPages address count => exact physFreeContiguousPages_spec h address count
  | reserveAllocatedPage address => exact physReserveAllocatedPage_spec h address

/-- One step. -/
theorem PhysOp.represents (h : Represents s pool) (op : PhysOp) : ∃ pool', Represents (op.run s).2 pool' := by
  have hkeeps := op.keeps h
  cases op with
  | allocPage =>
      rcases hkeeps with ⟨f, -, -, hs⟩ | ⟨hs, -⟩
      · exact ⟨_, hs⟩
      · exact ⟨pool, by rw [PhysOp.run, hs]; exact h⟩
  | allocContiguousPages count =>
      rcases hkeeps with ⟨r, -, -, -, -, hs⟩ | ⟨hs, -⟩
      · exact ⟨_, hs⟩
      · exact ⟨pool, by rw [PhysOp.run, hs]; exact h⟩
  | freePage address =>
      rcases hkeeps with ⟨f, _, -, -, hs⟩ | hs
      · exact ⟨_, hs⟩
      · exact ⟨pool, by rw [PhysOp.run, hs]; exact h⟩
  | freeContiguousPages address count =>
      rcases hkeeps with ⟨r, _, -, -, -, hs⟩ | hs
      · exact ⟨_, hs⟩
      · exact ⟨pool, by rw [PhysOp.run, hs]; exact h⟩
  | reserveAllocatedPage address =>
      rcases hkeeps with ⟨f, _, -, -, -, hs⟩ | hs
      · exact ⟨_, hs⟩
      · exact ⟨pool, by rw [PhysOp.run, hs]; exact h⟩

theorem PhysReachable.represents {boot : BootInfo} (h : PhysReachable boot s) : ∃ pool, Represents s pool := by
  induction h with
  | init hinit => exact physInit_represents hinit
  | step op _ ih =>
      obtain ⟨pool, hpool⟩ := ih
      exact op.represents hpool

/-- **The allocator's invariant.** In every reachable state the bitmaps are a page pool in which reserved usable
    frames are allocated, the counter is the number of free pages and the cursor is in range; every operation is the
    pool's own, and no reserved frame is free or can come back. -/
theorem physAllocator_invariant {boot : BootInfo} (h : PhysReachable boot s) : ∃ pool : PagePool Int,
    Represents s pool ∧ (∀ op : PhysOp, op.Keeps pool s) ∧
    (∀ f, s.usableGet f = 1 → s.reservedGet f = 1 → s.allocatedGet f = 1) ∧
    Disjoint pool.free pool.pinned ∧ Disjoint pool.returnable pool.pinned := by
  obtain ⟨pool, hpool⟩ := h.represents
  refine ⟨pool, hpool, fun op => op.keeps hpool, ?_, ?_, ?_⟩
  · intro f hu hr
    exact (hpool.taken f).mp (pool.pinned_taken f ((hpool.pinned f).mpr hr) ((hpool.usable f).mpr hu))
  · exact Finset.disjoint_left.mpr fun f hf => PagePool.not_pinned_of_free hf
  · exact Finset.disjoint_left.mpr fun f hf => (PagePool.mem_returnable.mp hf).2

/-- One usable region of 16 MiB behind the first, and a kernel that ends at 2 MiB. -/
def plainBoot : BootInfo where
  regionCount := 1
  base := fun _ => 1048576
  length := fun _ => 16777216
  type := fun _ => 1
  kernelEnd := 2097152
  infoStart := 0
  infoSize := 0

theorem plainBoot_invariant : ∃ s₀, PhysReachable plainBoot s₀ ∧
    PhysReachable plainBoot ((PhysOp.freePage 12345).run (PhysOp.allocPage.run s₀).2).2 ∧
    ∃ pool : PagePool Int, Represents ((PhysOp.freePage 12345).run (PhysOp.allocPage.run s₀).2).2 pool := by
  obtain ⟨s₀, hs₀⟩ : ∃ s₀, physInit plainBoot = some s₀ := ⟨_, if_neg (by decide)⟩
  have hreach := PhysReachable.init hs₀
  have hreach' := (hreach.step .allocPage).step (.freePage 12345)
  obtain ⟨pool, hpool, -⟩ := physAllocator_invariant hreach'
  exact ⟨s₀, hreach, hreach', pool, hpool⟩

end Vnt.Os
