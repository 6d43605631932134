import Vnt.Os.Boot

/-!
# `Os.InfoBlock` — the tags of the information block

Every read of a tag that lies in the block is a read of mapped memory, so the readers of `Os.Boot` return. `MemoryMap` is
the tag with the memory map as the bytes have it: the way to it over the tags in front, and its entries, whose bases
and lengths are unsigned.
-/

namespace Vnt.Os

open Lib

variable {mem : Memory} {boot : Handoff} {s : Slots} {info total cursor tag size bad : Int}

/-! ## The block -/

theorem physInfoAddr_range (boot : Handoff) : 0 ≤ physInfoAddr boot ∧ physInfoAddr boot < 1073741824 := by
  unfold physInfoAddr memoryEnd
  simp only
  split <;> omega

/-- An address that is not 0 is the one that was handed over. -/
theorem physInfoAddr_of_ne (h : physInfoAddr boot ≠ 0) :
    boot.magic = 0x36d76289 ∧ physInfoAddr boot = boot.info.toNat := by
  unfold physInfoAddr at h ⊢
  simp only at h ⊢
  split at h
  · exact absurd rfl h
  · rename_i hvalid
    rw [if_neg hvalid]
    simp only [not_or, not_not] at hvalid
    refine ⟨UInt32.toNat_inj.mp ?_, rfl⟩
    have := hvalid.1
    show boot.magic.toNat = 0x36d76289
    omega

/-- A size that is not 0 is what the block says, and fits behind the address. -/
theorem physInfoSize_fits {size : Int} (hrun : physInfoSize mem boot s = .ok (size, s)) (hsize : size ≠ 0) :
    (0 < physInfoAddr boot ∧ 16 ≤ size ∧ physInfoAddr boot + size ≤ 1073741824) ∧
      size = u32At mem (physInfoAddr boot) := by
  have hrange := physInfoAddr_range boot
  unfold physInfoSize at hrun
  split at hrun
  · cases hrun
    exact absurd rfl hsize
  rename_i haddress
  rw [Prog.bind_run] at hrun
  cases hread : memReadU32 mem (physInfoAddr boot) 0 s with
  | error e =>
      rw [hread] at hrun
      cases hrun
  | ok p =>
      obtain ⟨value, s₁⟩ := p
      rw [hread] at hrun
      change (if value < 16 then _ else _ : Kernel Int) s₁ = _ at hrun
      split at hrun
      · cases hrun
        exact absurd rfl hsize
      rename_i hsmall
      have hvalue : value = u32At mem (physInfoAddr boot) := by
        have heffective : (physInfoAddr boot + 0) % 18446744073709551616 = physInfoAddr boot := by omega
        unfold memReadU32 memRead at hread
        simp only [heffective] at hread
        split at hread
        · cases hread
          rfl
        · cases hread
      have hvalues := u32At_range mem (physInfoAddr boot)
      rw [Prog.bind_run_ok (addWord_run (by omega) (by omega))] at hrun
      split at hrun
      · cases hrun
        exact absurd rfl hsize
      · rename_i hstop
        unfold memoryEnd at hstop
        cases hrun
        exact ⟨by omega, hvalue⟩

theorem physInfoSize_reads (mem : Memory) (boot : Handoff) : Reads (physInfoSize mem boot) :=
  .ite (.pure 0) (.bind (.memRead ..) fun _ => .ite (.pure 0) (.bind (.word _) fun _ => .ite (.pure 0) (.pure _)))

/-! ## A tag -/

theorem readTag_run (hinfo : 0 ≤ info) (hcursor : 0 ≤ cursor) (hstop : info + cursor + 8 ≤ 1073741824) :
    readTag mem info cursor s = .ok ((u32At mem (info + cursor), u32At mem (info + (cursor + 4))), s) := by
  have htype : memReadU32 mem info cursor s = .ok (u32At mem (info + cursor), s) :=
    memRead_run (by omega) (by unfold memoryEnd; omega)
  have hsize : memReadU32 mem info (cursor + 4) s = .ok (u32At mem (info + (cursor + 4)), s) :=
    memRead_run (by omega) (by unfold memoryEnd; omega)
  rw [readTag, Prog.bind_run_ok htype, Prog.bind_run_ok (addWord_run (by omega) (by omega)), Prog.bind_run_ok hsize]
  rfl

theorem nextTag_run (hcursor : 0 ≤ cursor) (hsize : 0 ≤ size) (hstop : cursor + size ≤ 1073741824) :
    nextTag cursor size s = .ok (cursor + (size + 7) / 8 * 8, s) := by
  rw [nextTag, Prog.bind_run_ok (addWord_run (by omega) (by omega)), Prog.bind_run_ok (mulWord_run (by omega) (by omega)),
    addWord_run (by omega) (by omega)]

theorem readTag_reads (mem : Memory) (info cursor : Int) : Reads (readTag mem info cursor) :=
  .bind (.memRead ..) fun _ => .bind (.word _) fun _ => .bind (.memRead ..) fun _ => .pure _

theorem nextTag_reads (cursor tagSize : Int) : Reads (nextTag cursor tagSize) :=
  .bind (.word _) fun _ => .bind (.word _) fun _ => .word _

/-! ## The memory map -/

/-- The first memory map behind `cursor` is at `tag`. -/
inductive MmapFrom (mem : Memory) (info total : Int) : Int → Int → Prop where
  | here {cursor : Int} : cursor + 8 ≤ total → u32At mem (info + cursor) = 6 → MmapFrom mem info total cursor cursor
  | next {cursor tag : Int} : cursor + 8 ≤ total → u32At mem (info + cursor) ≠ 0 → u32At mem (info + cursor) ≠ 6 →
      8 ≤ u32At mem (info + (cursor + 4)) → cursor + u32At mem (info + (cursor + 4)) ≤ total →
      MmapFrom mem info total (cursor + (u32At mem (info + (cursor + 4)) + 7) / 8 * 8) tag →
      MmapFrom mem info total cursor tag

/-- An entry of the memory map. -/
structure Region where
  base : Int
  length : Int
  type : Int
  deriving DecidableEq

/-- A block with a memory map. -/
structure MemoryMap (mem : Memory) (boot : Handoff) where
  tag : Int
  magic : boot.magic = 0x36d76289
  placed : 0 < boot.info.toNat
  large : 16 ≤ u32At mem boot.info.toNat
  mapped : boot.info.toNat + u32At mem boot.info.toNat ≤ 1073741824
  found : MmapFrom mem boot.info.toNat (u32At mem boot.info.toNat) 8 tag
  header : 16 ≤ u32At mem (boot.info.toNat + (tag + 4))
  inside : tag + u32At mem (boot.info.toNat + (tag + 4)) ≤ u32At mem boot.info.toNat
  wide : 24 ≤ u32At mem (boot.info.toNat + (tag + 8))

namespace MemoryMap

def tagSize (map : MemoryMap mem boot) : Int := u32At mem (boot.info.toNat + (map.tag + 4))

def entrySize (map : MemoryMap mem boot) : Int := u32At mem (boot.info.toNat + (map.tag + 8))

/-- The number of entries. -/
def count (map : MemoryMap mem boot) : Int := (map.tagSize - 16) / map.entrySize

def region (map : MemoryMap mem boot) (index : Int) : Region :=
  let entry := boot.info.toNat + (map.tag + 16 + index * map.entrySize)
  { base := bytesAt mem entry 8, length := bytesAt mem (entry + 8) 8, type := u32At mem (entry + 16) }

end MemoryMap

theorem MmapFrom.range (h : MmapFrom mem info total cursor tag) : cursor ≤ tag ∧ tag + 8 ≤ total := by
  induction h with
  | here hroom _ => exact ⟨Int.le_refl _, hroom⟩
  | next _ _ _ _ _ _ ih => omega

/-! ## The readers return -/

variable {found : Int → Int → Int → Kernel Int}

/-- The loop gives `found` the tag with the memory map. -/
theorem mmapLoop_run (hinfo : 0 ≤ info) (htotal : info + total ≤ 1073741824) (h : MmapFrom mem info total cursor tag)
    (hheader : 16 ≤ u32At mem (info + (tag + 4))) (hinside : tag + u32At mem (info + (tag + 4)) ≤ total)
    (hwide : 24 ≤ u32At mem (info + (tag + 8))) : ∀ {fuel : Nat}, 0 ≤ cursor → total - cursor < fuel →
      mmapLoop mem info total bad found fuel cursor s =
        found tag (u32At mem (info + (tag + 4))) (u32At mem (info + (tag + 8))) s := by
  induction h with
  | @here cursor hroom htype =>
      intro fuel hcursor hfuel
      obtain ⟨fuel, rfl⟩ : ∃ n, fuel = n + 1 := ⟨fuel - 1, by omega⟩
      have hentry : memReadU32 mem info (cursor + 8) s = .ok (u32At mem (info + (cursor + 8)), s) :=
        memRead_run (by omega) (by unfold memoryEnd; omega)
      rw [mmapLoop, Prog.bind_run_ok (addWord_run (by omega) (by omega)), if_pos hroom,
        Prog.bind_run_ok (readTag_run hinfo hcursor (by omega))]
      simp only
      rw [if_neg (by omega), Prog.bind_run_ok (addWord_run (by omega) (by omega)), if_neg (by omega), htype,
        if_neg (by decide), if_pos rfl, if_neg (by omega), Prog.bind_run_ok (addWord_run (by omega) (by omega)),
        Prog.bind_run_ok hentry, if_neg (by omega)]
  | @next cursor tag hroom hend htype hsize hfits hfrom ih =>
      intro fuel hcursor hfuel
      obtain ⟨fuel, rfl⟩ : ∃ n, fuel = n + 1 := ⟨fuel - 1, by omega⟩
      rw [mmapLoop, Prog.bind_run_ok (addWord_run (by omega) (by omega)), if_pos hroom,
        Prog.bind_run_ok (readTag_run hinfo hcursor (by omega))]
      simp only
      rw [if_neg (by omega), Prog.bind_run_ok (addWord_run (by omega) (by omega)), if_neg (by omega), if_neg hend,
        if_neg htype, Prog.bind_run_ok (nextTag_run hcursor (by omega) (by omega))]
      exact ih hheader hinside hwide (by omega) (by omega)

theorem MemoryMap.infoAddr (map : MemoryMap mem boot) : physInfoAddr boot = boot.info.toNat := by
  have hmapped := map.mapped
  have hlarge := map.large
  have hplaced := map.placed
  have hmagic : (boot.magic.toNat : Int) = 0x36d76289 := by
    rw [map.magic]
    rfl
  rw [physInfoAddr]
  simp only [hmagic, memoryEnd]
  rw [if_neg (by omega)]

theorem MemoryMap.infoSize (map : MemoryMap mem boot) :
    physInfoSize mem boot s = .ok (u32At mem boot.info.toNat, s) := by
  have hmapped := map.mapped
  have hlarge := map.large
  have hplaced := map.placed
  have hread : memReadU32 mem boot.info.toNat 0 s = .ok (u32At mem (boot.info.toNat + 0), s) :=
    memRead_run (by omega) (by unfold memoryEnd; omega)
  rw [Int.add_zero] at hread
  rw [physInfoSize, map.infoAddr, if_neg (by omega), Prog.bind_run_ok hread, if_neg (by omega),
    Prog.bind_run_ok (addWord_run (by omega) (by omega)), if_neg (by unfold memoryEnd; omega)]
  rfl

theorem MemoryMap.withMmap_run (map : MemoryMap mem boot) :
    withMmap mem boot bad found s = found map.tag map.tagSize map.entrySize s := by
  have hmapped := map.mapped
  have hlarge := map.large
  have hplaced := map.placed
  rw [withMmap, map.infoAddr, if_neg (by omega), Prog.bind_run_ok map.infoSize, if_neg (by omega)]
  exact mmapLoop_run (by omega) map.mapped map.found map.header map.inside map.wide (by omega) (by omega)

theorem MemoryMap.mmapEntries_run (map : MemoryMap mem boot) :
    mmapEntries map.tagSize map.entrySize s = .ok (map.count, s) := by
  have hrange : 0 ≤ map.tagSize ∧ map.tagSize < 4294967296 := u32At_range mem _
  have hsub : subWord map.tagSize 16 s = .ok (map.tagSize - 16, s) := word_run ⟨by omega, by omega⟩
  rw [mmapEntries, Prog.bind_run_ok hsub]
  rfl

/-- `phys_mmap_count` on a block with a memory map. -/
theorem MemoryMap.count_run (map : MemoryMap mem boot) : physMmapCount mem boot s = .ok (map.count, s) := by
  rw [physMmapCount, map.withMmap_run, map.mmapEntries_run]

/-- An entry lies in its tag. -/
theorem MemoryMap.entry_inside (map : MemoryMap mem boot) {index : Int} (hindex : 0 ≤ index) (hcount : index < map.count) :
    0 ≤ index * map.entrySize ∧ index * map.entrySize + 40 ≤ map.tagSize := by
  have hwide : 24 ≤ map.entrySize := map.wide
  have hlast : (index + 1) * map.entrySize ≤ map.tagSize - 16 :=
    (Int.le_ediv_iff_mul_le (by omega)).mp (Int.add_one_le_of_lt hcount)
  rw [Int.add_mul, Int.one_mul] at hlast
  exact ⟨Int.mul_nonneg hindex (by omega), by omega⟩

theorem MemoryMap.field_run (map : MemoryMap mem boot) {index : Int} (hindex : 0 ≤ index) (hcount : index < map.count) :
    physMmapBase mem boot index s = .ok (signed (map.region index).base, s) ∧
      physMmapLength mem boot index s = .ok (signed (map.region index).length, s) ∧
      physMmapType mem boot index s = .ok ((map.region index).type, s) := by
  obtain ⟨hskip, hfits⟩ := map.entry_inside hindex hcount
  have hmapped := map.mapped
  have hplaced := map.placed
  have hinside : map.tag + map.tagSize ≤ u32At mem boot.info.toNat := map.inside
  have htag := map.found.range
  have hstart : ∀ field, 0 ≤ field → field ≤ 2 → physMmapField mem boot index field s =
      (if field = 0 then memReadU64 mem boot.info.toNat (map.tag + 16 + index * map.entrySize)
      else if field = 1 then do
        let lengthAt ← addWord (map.tag + 16 + index * map.entrySize) 8
        memReadU64 mem boot.info.toNat lengthAt
      else do
        let typeAt ← addWord (map.tag + 16 + index * map.entrySize) 16
        memReadU32 mem boot.info.toNat typeAt : Kernel Int) s := by
    intro field h₀ h₂
    rw [physMmapField, if_neg (by omega), map.withMmap_run, readEntry, Prog.bind_run_ok map.mmapEntries_run,
      if_neg (by omega), Prog.bind_run_ok (addWord_run (by omega) (by omega)),
      Prog.bind_run_ok (mulWord_run (by omega) (by omega)), Prog.bind_run_ok (addWord_run (by omega) (by omega)),
      map.infoAddr]
  have hlong : ∀ offset, 0 ≤ offset → offset + 8 ≤ map.tag + map.tagSize →
      memReadU64 mem boot.info.toNat offset s = .ok (signed (bytesAt mem (boot.info.toNat + offset) 8), s) := by
    intro offset h₀ h₁
    exact Prog.bind_run_ok (memRead_run (by omega) (by unfold memoryEnd; omega))
  refine ⟨?_, ?_, ?_⟩
  · rw [physMmapBase, hstart 0 (by decide) (by decide), if_pos rfl, hlong _ (by omega) (by omega)]
    rfl
  · rw [physMmapLength, hstart 1 (by decide) (by decide), if_neg (by decide), if_pos rfl,
      Prog.bind_run_ok (addWord_run (by omega) (by omega)), hlong _ (by omega) (by omega), ← Int.add_assoc]
    rfl
  · have hread : memReadU32 mem boot.info.toNat (map.tag + 16 + index * map.entrySize + 16) s =
        .ok (u32At mem (boot.info.toNat + (map.tag + 16 + index * map.entrySize + 16)), s) :=
      memRead_run (by omega) (by unfold memoryEnd; omega)
    rw [physMmapType, hstart 2 (by decide) (by decide), if_neg (by decide), if_neg (by decide),
      Prog.bind_run_ok (addWord_run (by omega) (by omega)), hread, ← Int.add_assoc]
    rfl

/-! ## Blocks without a memory map -/

/-- The loop gives up, or there is a memory map for it to find. -/
theorem mmapLoop_cases (hinfo : 0 ≤ info) (htotal : info + total ≤ 1073741824) (fuel : Nat) : ∀ {cursor : Int},
    0 ≤ cursor → cursor ≤ total + 8 → total - cursor < fuel → 0 < fuel →
      mmapLoop mem info total bad found fuel cursor s = .ok (bad, s) ∨
      mmapLoop mem info total bad found fuel cursor s = .ok (0, s) ∨
      ∃ tag, MmapFrom mem info total cursor tag ∧ 16 ≤ u32At mem (info + (tag + 4)) ∧
        tag + u32At mem (info + (tag + 4)) ≤ total ∧ 24 ≤ u32At mem (info + (tag + 8)) := by
  induction fuel with
  | zero =>
      intro cursor _ _ _ h
      exact absurd h (Nat.lt_irrefl 0)
  | succ fuel ih =>
      intro cursor hcursor hnear hfuel _
      rw [mmapLoop, Prog.bind_run_ok (addWord_run (by omega) (by omega))]
      by_cases hroom : cursor + 8 ≤ total
      swap
      · rw [if_neg hroom]
        exact .inl rfl
      rw [if_pos hroom, Prog.bind_run_ok (readTag_run hinfo hcursor (by omega))]
      simp only
      have hsizes := u32At_range mem (info + (cursor + 4))
      by_cases hsmall : u32At mem (info + (cursor + 4)) < 8
      · rw [if_pos hsmall]
        exact .inl rfl
      rw [if_neg hsmall, Prog.bind_run_ok (addWord_run (by omega) (by omega))]
      by_cases hstop : cursor + u32At mem (info + (cursor + 4)) > total
      · rw [if_pos hstop]
        exact .inl rfl
      rw [if_neg hstop]
      by_cases hend : u32At mem (info + cursor) = 0
      · rw [if_pos hend]
        exact .inr (.inl rfl)
      rw [if_neg hend]
      by_cases htype : u32At mem (info + cursor) = 6
      · rw [if_pos htype]
        by_cases hheader : u32At mem (info + (cursor + 4)) < 16
        · rw [if_pos hheader]
          exact .inl rfl
        have hentry : memReadU32 mem info (cursor + 8) s = .ok (u32At mem (info + (cursor + 8)), s) :=
          memRead_run (by omega) (by unfold memoryEnd; omega)
        rw [if_neg hheader, Prog.bind_run_ok (addWord_run (by omega) (by omega)), Prog.bind_run_ok hentry]
        by_cases hwide : u32At mem (info + (cursor + 8)) < 24
        · rw [if_pos hwide]
          exact .inl rfl
        · exact .inr (.inr ⟨cursor, .here hroom htype, by omega, by omega, by omega⟩)
      rw [if_neg htype, Prog.bind_run_ok (nextTag_run hcursor (by omega) (by omega))]
      refine (ih (by omega) (by omega) (by omega) (by omega)).imp_right (Or.imp_right ?_)
      rintro ⟨tag, hfrom, hmap⟩
      exact ⟨tag, .next hroom hend htype (by omega) (by omega) hfrom, hmap⟩

theorem mmapLoop_reads (hfound : ∀ tag tagSize entrySize, Reads (found tag tagSize entrySize)) (fuel : Nat) :
    ∀ cursor, Reads (mmapLoop mem info total bad found fuel cursor) := by
  induction fuel with
  | zero => exact fun _ => .fault _
  | succ fuel ih =>
      intro cursor
      refine .bind (.word _) fun _ => .ite (.bind (readTag_reads ..) fun tag => .ite (.pure bad) ?_) (.pure bad)
      refine .bind (.word _) fun _ => .ite (.pure bad) (.ite (.pure 0) (.ite (.ite (.pure bad) ?_) ?_))
      · exact .bind (.word _) fun _ => .bind (.memRead ..) fun _ => .ite (.pure bad) (hfound ..)
      · exact .bind (nextTag_reads ..) fun next => ih next

theorem physMmapCount_reads (mem : Memory) (boot : Handoff) : Reads (physMmapCount mem boot) := by
  refine .ite (.pure _) (.bind (physInfoSize_reads mem boot) fun _ => .ite (.pure _) (mmapLoop_reads ?_ _ _))
  exact fun _ _ _ => .bind (.word _) fun _ => .pure _

/-- A block in which entries are counted has a memory map. -/
theorem MemoryMap.of_count {entries : Int} (hrun : physMmapCount mem boot s = .ok (entries, s)) (hentries : 0 < entries) :
    Nonempty (MemoryMap mem boot) := by
  have hne : ∀ {r : Int}, r ≤ 0 → (.ok (r, s) : Except Fault (Int × Slots)) ≠ .ok (entries, s) := by
    intro r hr heq
    injection heq with heq
    injection heq with heq
    omega
  unfold physMmapCount withMmap at hrun
  by_cases hinfo : physInfoAddr boot = 0
  · rw [if_pos hinfo] at hrun
    exact absurd hrun (hne (by decide))
  rw [if_neg hinfo, Prog.bind_run] at hrun
  cases hsize : physInfoSize mem boot s with
  | error e =>
      rw [hsize] at hrun
      cases hrun
  | ok p =>
      obtain ⟨total, s₁⟩ := p
      obtain rfl : s₁ = s := by
        have hsame := (physInfoSize_reads mem boot).run hsize s
        rw [hsize] at hsame
        injection hsame with hsame
        injection hsame with _ hsame
      rw [hsize] at hrun
      change (if total < 16 then _ else _ : Kernel Int) s₁ = _ at hrun
      by_cases hsmall : total < 16
      · rw [if_pos hsmall] at hrun
        exact absurd hrun (hne (by decide))
      rw [if_neg hsmall] at hrun
      obtain ⟨⟨hpos, hlarge, hfits⟩, htotal⟩ := physInfoSize_fits hsize (by omega)
      rcases @mmapLoop_cases mem s₁ _ _ (-1) (fun _ tagSize entrySize => mmapEntries tagSize entrySize)
        (by omega : 0 ≤ physInfoAddr boot) hfits (total.toNat + 1) 8 (by omega) (by omega) (by omega) (by omega)
        with hbad | hzero | ⟨tag, hfrom, hheader, hinside, hwide⟩
      · rw [hbad] at hrun
        exact absurd hrun (hne (by decide))
      · rw [hzero] at hrun
        exact absurd hrun (hne (by decide))
      · obtain ⟨hmagic, haddress⟩ := physInfoAddr_of_ne hinfo
        rw [haddress] at hfrom hheader hinside hwide hpos hfits htotal
        subst htotal
        exact ⟨tag, hmagic, by omega, by omega, hfits, hfrom, hheader, hinside, hwide⟩

end Vnt.Os
