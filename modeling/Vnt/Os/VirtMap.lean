import Vnt.Os.Virt
import Vnt.Os.PhysInit

/-!
# `Os.VirtMap` — mapping pages over any run

The frames of the directory and of the tables are reserved ones, so the allocator neither hands them out nor takes them
back, and no client has one. A call of `virt_map_page` therefore changes the map at its page and nowhere else, whatever
the calls and the writes before it were.
-/

namespace Vnt.Os

open Lib

/-- What holds between two operations: the map is in order, and its frames are pinned and nobody's. -/
structure VirtInvariant (directory : Int) (tables : Tables) (pool : PagePool Int) (owned : Set Int) (s : VirtState) :
    Prop where
  represents : Represents s.phys pool
  paged : PageTables directory tables s.memory
  kept : ∀ frame, Paging directory tables frame → frame ∈ pool.pinned
  owned : ∀ frame ∈ owned, frame ∈ pool.taken ∧ ¬ Paging directory tables frame

variable {directory virtualAddress physicalAddress flags : Int} {tables : Tables} {pool : PagePool Int}
  {owned : Set Int} {s : VirtState} {index table frame : Int}

/-! ## A new table -/

theorem fillTable_run {hugeBase : Int} (hframe : 0 ≤ frame ∧ frame < 262144)
    (hbase : 0 ≤ hugeBase ∧ hugeBase < 1073741824) (count : Nat) : ∀ {i : Int} {s : VirtState}, 0 ≤ i → i + count ≤ 512 →
      ∃ mem, fillTable (frame * 4096) hugeBase count i s = .ok ((), { s with memory := mem }) ∧
        (∀ j, i ≤ j → j < i + count → u64At mem (frame * 4096 + j * 8) = hugeBase + j * 4096 + 3) ∧
        ∀ a, a < frame * 4096 + i * 8 ∨ frame * 4096 + (i + count) * 8 ≤ a → mem a = s.memory a := by
  induction count with
  | zero => exact fun {i s} _ _ => ⟨s.memory, rfl, fun j h₁ h₂ => by omega, fun a _ => rfl⟩
  | succ count ih =>
      intro i s hi hlast
      obtain ⟨mem, hrun, hfilled, hsame⟩ := ih (i := i + 1)
        (s := { s with memory := store s.memory (frame * 4096 + i * 8) 8 (hugeBase + i * 4096 + 3) })
        (by omega) (by omega)
      refine ⟨mem, ?_, fun j h₁ h₂ => ?_, fun a ha => ?_⟩
      · rw [fillTable, Prog.bind_run_ok (checkedWord_run ⟨by omega, by omega⟩),
          Prog.bind_run_ok (checkedWord_run ⟨by omega, by omega⟩),
          Prog.bind_run_ok (checkedWord_run ⟨by omega, by omega⟩),
          Prog.bind_run_ok (writeWord_run (by omega) (by omega)), hrun]
      · by_cases he : j = i
        · rw [he, u64At_congr fun a ha hb => hsame a (.inl (by omega))]
          exact u64At_store s.memory _ (by omega) (by omega)
        · exact hfilled j (by omega) (by omega)
      · rw [hsame a (by omega)]
        exact store_other s.memory 8 (by omega)

/-- A taken usable page can be reserved. -/
theorem physReserveAllocatedPage_taken {phys : PhysState} (h : Represents phys pool) (hu : frame ∈ pool.usable)
    (ht : frame ∈ pool.taken) : (physReserveAllocatedPage phys (frame * 4096)).1 = 1 ∧
      Represents (physReserveAllocatedPage phys (frame * 4096)).2 (pool.pin frame ht) := by
  have hlow := h.high frame hu
  have husable := (h.usable frame).mp hu
  have hhigh := (inBitmap_of_get husable).2
  have hdiv : frame * 4096 / 4096 = frame := by omega
  have hone : (physReserveAllocatedPage phys (frame * 4096)).1 = 1 := by
    rw [physReserveAllocatedPage, if_neg (by omega)]
    simp only [hdiv]
    rw [if_neg (not_not.mpr rfl), if_neg (by rw [husable, (h.taken frame).mp ht]; simp)]
  rcases physReserveAllocatedPage_spec h (frame * 4096) with ⟨f, hf, -, haddress, -, hs⟩ | hzero
  · obtain rfl : f = frame := by omega
    exact ⟨hone, hs⟩
  · rw [hzero] at hone
    cases hone

/-- A 2-MiB entry is split, or there is no free page. -/
theorem splitEntry_run (h : VirtInvariant directory tables pool owned s) (hplaced : PlacedDirectory directory)
    (h₀ : 0 ≤ index) (h₁ : index < 512) (htable : tables index = none) :
    splitEntry directory index (u64At s.memory (directory + index * 8)) s = .ok (0, s) ∨
    ∃ table s' pool', splitEntry directory index (u64At s.memory (directory + index * 8)) s = .ok (table * 4096, s') ∧
      table ≠ 0 ∧ VirtInvariant directory (Function.update tables index (some table)) pool' owned s' ∧
      ∀ page, pageAt (Function.update tables index (some table)) s'.memory page = pageAt tables s.memory page := by
  have hlow := hplaced.low
  have hhigh := hplaced.high
  have hentry := h.paged.entry index h₀ h₁
  rw [htable] at hentry
  obtain ⟨-, -, hbase, hword⟩ := HugeEntry.word hentry h₀ h₁
  rcases physAllocPage_spec h.represents with ⟨frame, hfree, hpage, hs⟩ | ⟨hnone, -⟩
  swap
  · have hcall : callPhys physAllocPage s = .ok (0, s) := by rw [callPhys, hnone]
    rw [splitEntry, Prog.bind_run_ok hcall]
    exact .inl rfl
  obtain ⟨hframe₀, hframe₁⟩ := h.represents.free_range hfree
  have hfresh : ¬ Paging directory tables frame := fun hp => PagePool.not_pinned_of_free hfree (h.kept frame hp)
  obtain ⟨mem, hfill, hfilled, hsame⟩ := fillTable_run (⟨by omega, hframe₁⟩ : 0 ≤ frame ∧ frame < 262144)
    (⟨by omega, by omega⟩ : 0 ≤ index * 2097152 ∧ index * 2097152 < 1073741824) 512 (i := 0) (s := { s with phys := (physAllocPage s.phys).2 }) (by omega) (by omega)
  have htaken : frame ∈ (pool.take {frame}).taken := Finset.mem_union_right _ (Finset.mem_singleton_self frame)
  obtain ⟨hone, hreserved⟩ := physReserveAllocatedPage_taken hs (PagePool.mem_free.mp hfree).1 htaken
  obtain ⟨hpaged, hview⟩ := h.paged.split hplaced h₀ h₁ htable ⟨by omega, hframe₁⟩ hfresh
    (fun i hi₀ hi₁ => hfilled i hi₀ (by omega)) (fun a ha => hsame a (by omega))
  refine .inr ⟨frame, ⟨store mem (directory + index * 8) 8 (frame * 4096 + 3),
    (physReserveAllocatedPage (physAllocPage s.phys).2 (frame * 4096)).2⟩, _, ?_, by omega,
    ⟨hreserved, hpaged, ?_, ?_⟩, hview⟩
  · have hcall : callPhys physAllocPage s = .ok (frame * 4096, { s with phys := (physAllocPage s.phys).2 }) := by
      rw [callPhys, hpage]
    rw [splitEntry, Prog.bind_run_ok hcall, if_neg (by omega), hbase, Prog.bind_run_ok (checkedWord_run hword),
      Prog.bind_run_ok hfill, Prog.bind_run_ok (checkedWord_run ⟨by omega, by omega⟩),
      Prog.bind_run_ok (writeWord_run (by omega) (by omega)), Prog.bind_run_ok rfl]
    simp only [hone]
    rfl
  · -- the frames of the map are pinned: the old ones were, and the new one has just been
    rintro f (hf | ⟨other, hf⟩)
    · exact Finset.mem_insert_of_mem (h.kept f (.inl hf))
    · by_cases ho : other = index
      · rw [ho, Function.update_self] at hf
        rw [← Option.some.inj hf]
        exact Finset.mem_insert_self _ _
      · rw [Function.update_of_ne ho] at hf
        exact Finset.mem_insert_of_mem (h.kept f (.inr ⟨other, hf⟩))
  · -- a client's page is taken, and the new table was free
    intro f hf
    obtain ⟨hf₁, hf₂⟩ := h.owned f hf
    refine ⟨Finset.mem_union_left _ hf₁, ?_⟩
    rintro (hd | ⟨other, ho⟩)
    · exact hf₂ (.inl hd)
    · by_cases he : other = index
      · rw [he, Function.update_self] at ho
        exact (PagePool.mem_free.mp hfree).2 (Option.some.inj ho ▸ hf₁)
      · rw [Function.update_of_ne he] at ho
        exact hf₂ (.inr ⟨other, ho⟩)

/-! ## One call -/

/-- The arguments that `virt_map_page` accepts. -/
structure MapArguments (virtualAddress physicalAddress flags : Int) : Prop where
  virtualRange : 0 ≤ virtualAddress ∧ virtualAddress < 1073741824
  physicalRange : 0 ≤ physicalAddress ∧ physicalAddress < 1073741824
  virtualAligned : virtualAddress % 4096 = 0
  physicalAligned : physicalAddress % 4096 = 0
  flagsRange : 0 ≤ flags ∧ flags < 4096
  present : flags % 2 = 1

theorem writeEntry_run (h : VirtInvariant directory tables pool owned s) (hplaced : PlacedDirectory directory)
    (harguments : MapArguments virtualAddress physicalAddress flags)
    (htable : tables (virtualAddress / 2097152) = some table) (result : Int) :
    ∃ s', writeEntry virtualAddress physicalAddress flags (table * 4096) result s = .ok (result, s') ∧
      VirtInvariant directory tables pool owned s' ∧ ∀ page, pageAt tables s'.memory page =
        if page = virtualAddress / 4096 then physicalAddress / 4096 else pageAt tables s.memory page := by
  obtain ⟨⟨hv₀, hv₁⟩, ⟨hp₀, hp₁⟩, hv, hp, ⟨hf₀, hf₁⟩, hpresent⟩ := harguments
  have hentry := h.paged.entry (virtualAddress / 2097152) (by omega) (by omega)
  rw [htable] at hentry
  have hrange := hentry.2.1
  have hsmall : SmallEntry (physicalAddress + flags % 4096) := by
    unfold SmallEntry
    omega
  obtain ⟨hpaged, hview⟩ := h.paged.remap hplaced htable (i := virtualAddress / 4096 % 512) (by omega) (by omega) hsmall
  refine ⟨⟨store s.memory (table * 4096 + virtualAddress / 4096 % 512 * 8) 8 (physicalAddress + flags % 4096), s.phys⟩,
    ?_, ⟨h.represents, hpaged, h.kept, h.owned⟩, fun page => ?_⟩
  · rw [writeEntry, Prog.bind_run_ok (checkedWord_run ⟨by omega, by omega⟩),
      Prog.bind_run_ok (writeWord_run (by omega) (by omega))]
    rfl
  · have hindex : virtualAddress / 2097152 * 512 + virtualAddress / 4096 % 512 = virtualAddress / 4096 := by omega
    have hvalue : (physicalAddress + flags % 4096) / 4096 = physicalAddress / 4096 := by omega
    rw [hview page, hindex, hvalue]

/-- **What a call does to the map**: it returns, and its result says whether the page has been mapped or nothing has
    changed. -/
theorem virtMapPage_run (h : VirtInvariant directory tables pool owned s) (hplaced : PlacedDirectory directory)
    (virtualAddress physicalAddress flags : Int) : ∃ r s' tables' pool',
      virtMapPage directory virtualAddress physicalAddress flags s = .ok (r, s') ∧
      VirtInvariant directory tables' pool' owned s' ∧
      ((r = 0 ∧ ∀ page, pageAt tables' s'.memory page = pageAt tables s.memory page) ∨
        ((r = 1 ∨ r = 2) ∧ MapArguments virtualAddress physicalAddress flags ∧ ∀ page, pageAt tables' s'.memory page =
          if page = virtualAddress / 4096 then physicalAddress / 4096 else pageAt tables s.memory page)) := by
  have hrejected : ∃ r s' tables' pool', (pure 0 : Virt Int) s = .ok (r, s') ∧
      VirtInvariant directory tables' pool' owned s' ∧
      ((r = 0 ∧ ∀ page, pageAt tables' s'.memory page = pageAt tables s.memory page) ∨
        ((r = 1 ∨ r = 2) ∧ MapArguments virtualAddress physicalAddress flags ∧ ∀ page, pageAt tables' s'.memory page =
          if page = virtualAddress / 4096 then physicalAddress / 4096 else pageAt tables s.memory page)) :=
    ⟨0, s, tables, pool, rfl, h, .inl ⟨rfl, fun _ => rfl⟩⟩
  unfold virtMapPage
  split
  · exact hrejected
  split
  · exact hrejected
  have harguments : MapArguments virtualAddress physicalAddress flags := by constructor <;> omega
  have hlow := hplaced.low
  have hhigh := hplaced.high
  obtain ⟨index, hindex⟩ : ∃ index, virtualAddress / 2097152 = index := ⟨_, rfl⟩
  have hmod : virtualAddress / 2097152 % 512 = index := by omega
  have hentry := h.paged.entry index (by omega) (by omega)
  simp only [hmod]
  rw [Prog.bind_run_ok (readWord_run (by omega) (by omega))]
  cases htable : tables index with
  | none =>
      rw [htable] at hentry
      obtain ⟨hpresent, hhuge, -, -⟩ := HugeEntry.word hentry (by omega) (by omega)
      rw [hpresent, if_neg (by decide), hhuge, if_pos rfl]
      rcases splitEntry_run h hplaced (by omega) (by omega) htable with hnone | ⟨table, s', pool', hsplit, hne, hs', hview⟩
      · rw [Prog.bind_run_ok hnone, if_pos rfl]
        exact hrejected
      · rw [Prog.bind_run_ok hsplit, if_neg (by omega)]
        have hnew : Function.update tables index (some table) (virtualAddress / 2097152) = some table := by
          rw [hindex, Function.update_self]
        obtain ⟨s'', hrun, hs'', hview'⟩ := writeEntry_run hs' hplaced harguments hnew 1
        refine ⟨1, s'', _, pool', hrun, hs'', .inr ⟨.inl rfl, harguments, fun page => ?_⟩⟩
        rw [hview' page, hview page]
  | some table =>
      rw [htable] at hentry
      obtain ⟨hpde, hrange, -⟩ := hentry
      obtain ⟨hpresent, hhuge, hbase, hword⟩ := tableEntry_word hrange.1 hrange.2
      rw [hpde, hpresent, if_neg (by decide), hhuge, if_neg (by decide), hbase, Prog.bind_run_ok (checkedWord_run hword)]
      obtain ⟨s', hrun, hs', hview⟩ := writeEntry_run h hplaced harguments (by rw [hindex]; exact htable) 2
      exact ⟨2, s', tables, pool, hrun, hs', .inr ⟨.inr rfl, harguments, hview⟩⟩

/-! ## Runs -/

/-- The machine and the pages that the clients have: those handed to them and not freed since. -/
structure VirtSystem where
  state : VirtState
  owned : Set Int

/-- The pages of the clients after an operation of the allocator has returned `result`. -/
def ownedAfter (owned : Set Int) (result : Int) : PhysOp → Set Int
  | .allocPage => if result = 0 then owned else owned ∪ {result / 4096}
  | .allocContiguousPages count =>
      if result = 0 then owned else owned ∪ {f | result / 4096 ≤ f ∧ f < result / 4096 + count}
  | .freePage address => if result = 0 then owned else owned \ {address / 4096}
  | .freeContiguousPages address count =>
      if result = 0 then owned else owned \ {f | address / 4096 ≤ f ∧ f < address / 4096 + count}
  | .reserveAllocatedPage _ => owned

/-- A call of `virt_map_page`, a call of the allocator, or a byte that a client writes into a page of its own. -/
inductive VirtStep (directory : Int) : VirtSystem → VirtSystem → Prop where
  | map (virtualAddress physicalAddress flags : Int) {system : VirtSystem} {r : Int} {s' : VirtState} :
      virtMapPage directory virtualAddress physicalAddress flags system.state = .ok (r, s') →
      VirtStep directory system ⟨s', system.owned⟩
  | allocator (op : PhysOp) {system : VirtSystem} :
      VirtStep directory system ⟨⟨system.state.memory, (op.run system.state.phys).2⟩,
        ownedAfter system.owned (op.run system.state.phys).1 op⟩
  | write (address : Int) (byte : UInt8) {system : VirtSystem} : address / 4096 ∈ system.owned →
      VirtStep directory system ⟨⟨Function.update system.state.memory address byte, system.state.phys⟩, system.owned⟩

/-- The systems a run from boot goes through: the allocator has been initialised, the directory is in the kernel and
    holds 2-MiB identity entries. -/
inductive VirtReachable (directory : Int) (boot : BootInfo) : VirtSystem → Prop where
  | boot {mem : Memory} {phys : PhysState} : physInit boot = some phys → directory + 4096 ≤ boot.kernelEnd →
      (∀ index, 0 ≤ index → index < 512 → HugeEntry index (u64At mem (directory + index * 8))) →
      VirtReachable directory boot ⟨⟨mem, phys⟩, ∅⟩
  | step {system system' : VirtSystem} : VirtReachable directory boot system → VirtStep directory system system' →
      VirtReachable directory boot system'

/-! ## The invariant over runs -/

namespace VirtInvariant

variable {mem : Memory} {phys phys' : PhysState} {pages : Finset Int}

theorem take (h : VirtInvariant directory tables pool owned ⟨mem, phys⟩) (hpages : pages ⊆ pool.free)
    (hs : Represents phys' (pool.take pages)) :
    VirtInvariant directory tables (pool.take pages) (owned ∪ pages) ⟨mem, phys'⟩ where
  represents := hs
  paged := h.paged
  kept := h.kept
  owned := by
    rintro f (hf | hf)
    · exact ⟨Finset.mem_union_left _ (h.owned f hf).1, (h.owned f hf).2⟩
    · exact ⟨Finset.mem_union_right _ hf, fun hp => PagePool.not_pinned_of_free (hpages hf) (h.kept f hp)⟩

theorem give (h : VirtInvariant directory tables pool owned ⟨mem, phys⟩) (hpages : pages ⊆ pool.returnable)
    (hs : Represents phys' (pool.give pages hpages)) :
    VirtInvariant directory tables (pool.give pages hpages) (owned \ pages) ⟨mem, phys'⟩ where
  represents := hs
  paged := h.paged
  kept := h.kept
  owned := fun f hf => ⟨Finset.mem_sdiff.mpr ⟨(h.owned f hf.1).1, hf.2⟩, (h.owned f hf.1).2⟩

theorem pin (h : VirtInvariant directory tables pool owned ⟨mem, phys⟩) (hf : frame ∈ pool.taken)
    (hs : Represents phys' (pool.pin frame hf)) :
    VirtInvariant directory tables (pool.pin frame hf) owned ⟨mem, phys'⟩ where
  represents := hs
  paged := h.paged
  kept := fun f hp => Finset.mem_insert_of_mem (h.kept f hp)
  owned := h.owned

end VirtInvariant

theorem coe_run (first count : Int) : (run first count : Set Int) = {f | first ≤ f ∧ f < first + count} := by
  ext f
  simp [run]

/-- The allocator's operations move pages between the clients and the pool. -/
theorem VirtInvariant.allocator (h : VirtInvariant directory tables pool owned s) (op : PhysOp) : ∃ pool',
    VirtInvariant directory tables pool' (ownedAfter owned (op.run s.phys).1 op) ⟨s.memory, (op.run s.phys).2⟩ := by
  have hkeeps := op.keeps h.represents
  cases op with
  | allocPage =>
      rcases hkeeps with ⟨f, hf, hpage, hs⟩ | ⟨hnone, -⟩
      · have hlow := (h.represents.free_range hf).1
        refine ⟨pool.take {f}, ?_⟩
        have htake := h.take (Finset.singleton_subset_iff.mpr hf) hs
        rw [Finset.coe_singleton] at htake
        rw [ownedAfter, PhysOp.run, hpage, if_neg (by omega), Int.mul_ediv_cancel _ (by decide)]
        exact htake
      · refine ⟨pool, ?_⟩
        rw [ownedAfter, PhysOp.run, hnone, if_pos rfl]
        exact h
  | allocContiguousPages count =>
      rcases hkeeps with ⟨r, hcount, hlow, hfree, hpage, hs⟩ | ⟨hnone, -⟩
      · refine ⟨pool.take (run r count), ?_⟩
        have htake := h.take hfree hs
        rw [coe_run] at htake
        rw [ownedAfter, PhysOp.run, hpage, if_neg (by omega), Int.mul_ediv_cancel _ (by decide)]
        exact htake
      · refine ⟨pool, ?_⟩
        rw [ownedAfter, PhysOp.run, hnone, if_pos rfl]
        exact h
  | freePage address =>
      rcases hkeeps with ⟨f, hf, haddress, hone, hs⟩ | hnone
      · refine ⟨pool.give {f} hf, ?_⟩
        have hgive := h.give hf hs
        rw [Finset.coe_singleton] at hgive
        rw [ownedAfter, PhysOp.run, hone, if_neg (by decide), haddress, Int.mul_ediv_cancel _ (by decide), ← haddress]
        exact hgive
      · refine ⟨pool, ?_⟩
        rw [ownedAfter, PhysOp.run, hnone, if_pos rfl]
        exact h
  | freeContiguousPages address count =>
      rcases hkeeps with ⟨r, hr, -, haddress, hone, hs⟩ | hnone
      · refine ⟨pool.give (run r count) hr, ?_⟩
        have hgive := h.give hr hs
        rw [coe_run] at hgive
        have hdiv : address / 4096 = r := by omega
        rw [ownedAfter, PhysOp.run, hone, if_neg (by decide), hdiv]
        exact hgive
      · refine ⟨pool, ?_⟩
        rw [ownedAfter, PhysOp.run, hnone, if_pos rfl]
        exact h
  | reserveAllocatedPage address =>
      rcases hkeeps with ⟨f, hf, -, -, -, hs⟩ | hnone
      · exact ⟨_, h.pin hf hs⟩
      · refine ⟨pool, ?_⟩
        rw [PhysOp.run, hnone]
        exact h

/-- A client's write does not reach the directory or a table. -/
theorem VirtInvariant.write (h : VirtInvariant directory tables pool owned s) (hplaced : PlacedDirectory directory)
    {address : Int} (howned : address / 4096 ∈ owned) (byte : UInt8) :
    VirtInvariant directory tables pool owned ⟨Function.update s.memory address byte, s.phys⟩ := by
  refine ⟨h.represents, h.paged.congr hplaced fun a ha => ?_, h.kept, h.owned⟩
  apply Function.update_of_ne
  rintro rfl
  exact (h.owned _ howned).2 ha

/-- **The invariant holds in every run.** -/
theorem VirtReachable.invariant (hplaced : PlacedDirectory directory) {boot : BootInfo} {system : VirtSystem}
    (h : VirtReachable directory boot system) : ∃ tables pool,
      VirtInvariant directory tables pool system.owned system.state := by
  induction h with
  | @boot mem phys hinit hkernel hhuge =>
      obtain ⟨pool, hpool⟩ := physInit_represents hinit
      have halign := hplaced.aligned
      have hlow := hplaced.low
      have hhigh := hplaced.high
      refine ⟨fun _ => none, pool, hpool, ⟨hhuge, (fun _ _ _ ht _ => nomatch ht), (fun _ ht => nomatch ht)⟩, ?_, ?_⟩
      · rintro frame (rfl | ⟨index, ht⟩)
        · exact (hpool.pinned _).mpr (physInit_kernel hinit ⟨by omega, by omega⟩)
        · cases ht
      · exact fun frame hf => absurd hf (Set.notMem_empty frame)
  | step _ hstep ih =>
      obtain ⟨tables, pool, hinv⟩ := ih
      cases hstep with
      | map virtualAddress physicalAddress flags hrun =>
          obtain ⟨r, s', tables', pool', hrun', hinv', -⟩ :=
            virtMapPage_run hinv hplaced virtualAddress physicalAddress flags
          rw [hrun] at hrun'
          cases hrun'
          exact ⟨tables', pool', hinv'⟩
      | allocator op =>
          obtain ⟨pool', hinv'⟩ := hinv.allocator op
          exact ⟨tables, pool', hinv'⟩
      | write address byte howned => exact ⟨tables, pool, hinv.write hplaced howned byte⟩

/-! ## The law -/

/-- Both states translate the address, to the same number. -/
def SameTranslation (directory : Int) (s s' : VirtState) (address : Int) : Prop :=
  ∃ value, virtTranslate directory address s = .ok (value, s) ∧ virtTranslate directory address s' = .ok (value, s')

theorem sameTranslation_of_page {s' : VirtState} {tables' : Tables} (h : PageTables directory tables s.memory)
    (h' : PageTables directory tables' s'.memory) (hplaced : PlacedDirectory directory) {address : Int}
    (hpage : pageAt tables' s'.memory (address / 4096) = pageAt tables s.memory (address / 4096)) :
    SameTranslation directory s s' address := by
  by_cases hrange : 0 ≤ address ∧ address < 1073741824
  · refine ⟨_, virtTranslate_run h hplaced hrange.1 hrange.2, ?_⟩
    rw [virtTranslate_run h' hplaced hrange.1 hrange.2, hpage]
  · exact ⟨-1, virtTranslate_outside (by omega), virtTranslate_outside (by omega)⟩

/-- **The page mapping law.** In every run, whatever `virt_map_page` is called with, it returns 0, 1 or 2. With 1 or 2 the
    page is mapped, offset by offset, and no address outside it is translated otherwise than before; with 0 no address
    is. -/
theorem virtMapPage_law {boot : BootInfo} {system : VirtSystem} (hplaced : PlacedDirectory directory)
    (h : VirtReachable directory boot system) (virtualAddress physicalAddress flags : Int) : ∃ r s',
      virtMapPage directory virtualAddress physicalAddress flags system.state = .ok (r, s') ∧
      (r = 0 ∨ r = 1 ∨ r = 2) ∧
      (r = 1 ∨ r = 2 →
        (∀ offset, 0 ≤ offset → offset < 4096 →
          virtTranslate directory (virtualAddress + offset) s' = .ok (physicalAddress + offset, s')) ∧
        ∀ address, ¬(virtualAddress ≤ address ∧ address < virtualAddress + 4096) →
          SameTranslation directory system.state s' address) ∧
      (r = 0 → ∀ address, SameTranslation directory system.state s' address) := by
  obtain ⟨tables, pool, hinv⟩ := h.invariant hplaced
  obtain ⟨r, s', tables', pool', hrun, hinv', hview⟩ := virtMapPage_run hinv hplaced virtualAddress physicalAddress flags
  refine ⟨r, s', hrun, ?_⟩
  rcases hview with ⟨rfl, hsame⟩ | ⟨hr, harguments, hmapped⟩
  · refine ⟨.inl rfl, fun h0 => by omega, fun _ address => ?_⟩
    exact sameTranslation_of_page hinv.paged hinv'.paged hplaced (hsame _)
  · obtain ⟨⟨hv₀, hv₁⟩, ⟨hp₀, hp₁⟩, hv, hp, -, -⟩ := harguments
    refine ⟨.inr hr, fun _ => ⟨fun offset h₀ h₁ => ?_, fun address hout => ?_⟩, fun h0 => by omega⟩
    · have hpage : (virtualAddress + offset) / 4096 = virtualAddress / 4096 := by omega
      have hvalue : physicalAddress / 4096 * 4096 + (virtualAddress + offset) % 4096 = physicalAddress + offset := by omega
      rw [virtTranslate_run hinv'.paged hplaced (by omega) (by omega), hmapped, if_pos hpage, hvalue]
    · refine sameTranslation_of_page hinv.paged hinv'.paged hplaced ?_
      rw [hmapped, if_neg (by omega)]

/-- A memory that holds a word at each multiple of 8. -/
def memoryOfWords (words : Int → Int) : Memory := fun address =>
  UInt8.ofInt (words (address / 8) / 256 ^ (address % 8).toNat % 256)

theorem u64At_memoryOfWords {words : Int → Int} (index : Int) (h₀ : 0 ≤ words index)
    (h₁ : words index < 9223372036854775808) : u64At (memoryOfWords words) (index * 8) = words index := by
  have hbytes : bytesAt (memoryOfWords words) (index * 8) 8 = words index := by
    refine bytesAt_of_bytes 8 (fun k hk => ?_) h₀ (Int.lt_trans h₁ (by decide))
    have hdiv : (index * 8 + (k : Int)) / 8 = index := by omega
    have hmod : ((index * 8 + (k : Int)) % 8).toNat = k := by omega
    rw [memoryOfWords, hdiv, hmod, toNat_ofInt_emod]
  rw [u64At, hbytes, signed, if_pos h₁]

/-- The directory as `boot.S` leaves it, at 1056768. -/
def bootDirectory : Memory := memoryOfWords fun word => (word - 132096) * 2097152 + 131

theorem bootDirectory_maps : ∃ system, VirtReachable 1056768 plainBoot system ∧ ∃ r s',
    virtMapPage 1056768 268435456 3145728 3 system.state = .ok (r, s') ∧
    (r = 1 ∨ r = 2 → virtTranslate 1056768 (268435456 + 5) s' = .ok (3145728 + 5, s')) := by
  have hplaced : PlacedDirectory 1056768 := ⟨by decide, by decide, by decide⟩
  obtain ⟨phys, hphys⟩ : ∃ phys, physInit plainBoot = some phys := ⟨_, if_neg (by decide)⟩
  have hreach : VirtReachable 1056768 plainBoot ⟨⟨bootDirectory, phys⟩, ∅⟩ := by
    refine .boot hphys (by decide) fun index h₀ h₁ => ?_
    have haddress : 1056768 + index * 8 = (132096 + index) * 8 := by omega
    rw [haddress, bootDirectory, u64At_memoryOfWords _ (by omega) (by omega), HugeEntry]
    omega
  obtain ⟨r, s', hrun, -, hmapped, -⟩ := virtMapPage_law hplaced hreach 268435456 3145728 3
  exact ⟨_, hreach, r, s', hrun, fun hr => (hmapped hr).1 5 (by decide) (by decide)⟩

end Vnt.Os
