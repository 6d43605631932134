import Vnt.Os.Memory
import Vnt.Os.PhysReachable

/-!
# `Os.Virt` — page tables

`os/mm/virt.vnt`: the page directory of the first GiB and the tables of 4-KiB pages behind its entries, read and written
at their physical addresses. The state is the physical memory and the allocator's; `page_directory` is a parameter.
Entries come from memory, so their quotients and remainders are the processor's, which truncate.
-/

namespace Vnt.Os

open Lib

/-- Physical memory and the state of the allocator. -/
structure VirtState where
  memory : Memory
  phys : PhysState

/-- Code that works on both. -/
abbrev Virt (α : Type) := Prog VirtState Fault α

def checkedWord (z : Int) : Virt Int := if InWord z then pure z else Prog.fault .arithmetic

def readWord (address offset : Int) : Virt Int := do
  let s ← Prog.get
  let effective := (address + offset) % 18446744073709551616
  if effective + 8 ≤ memoryEnd then pure (u64At s.memory effective) else Prog.fault (.outside effective)

def writeWord (address offset value : Int) : Virt Unit :=
  let effective := (address + offset) % 18446744073709551616
  if effective + 8 ≤ memoryEnd then Prog.modify fun s => { s with memory := store s.memory effective 8 value }
  else Prog.fault (.outside effective)

/-- A call of the allocator. -/
def callPhys (operation : PhysState → Int × PhysState) : Virt Int := fun s =>
  .ok ((operation s.phys).1, { s with phys := (operation s.phys).2 })

variable (directory : Int)

def virtTranslate (address : Int) : Virt Int :=
  if address < 0 ∨ address ≥ 1073741824 then pure (-1)
  else do
    let directoryIndex := address / 2097152 % 512
    let pde ← readWord directory (directoryIndex * 8)
    if pde.tmod 2 = 0 then pure (-1)
    else if (pde.tdiv 128).tmod 2 = 1 then do
      let base ← checkedWord (pde - pde.tmod 2097152)
      checkedWord (base + address % 2097152)
    else do
      let table ← checkedWord (pde - pde.tmod 4096)
      let tableIndex := address / 4096 % 512
      let pte ← readWord table (tableIndex * 8)
      if pte.tmod 2 = 0 then pure (-1)
      else do
        let page ← checkedWord (pte - pte.tmod 4096)
        checkedWord (page + address % 4096)

/-- The loop that fills a new table, `count` entries from `i` on. -/
def fillTable (newTable hugeBase : Int) : Nat → Int → Virt Unit
  | 0, _ => pure ()
  | count + 1, i => do
      let step ← checkedWord (i * 4096)
      let page ← checkedWord (hugeBase + step)
      let entry ← checkedWord (page + 3)
      writeWord newTable (i * 8) entry
      fillTable newTable hugeBase count (i + 1)

/-- A 2-MiB entry is replaced by a table of the same pages; 0 where `virt_map_page` gives up. -/
def splitEntry (directoryIndex pde : Int) : Virt Int := do
  let newTable ← callPhys physAllocPage
  if newTable = 0 then pure 0
  else do
    let hugeBase ← checkedWord (pde - pde.tmod 2097152)
    fillTable newTable hugeBase 512 0
    let entry ← checkedWord (newTable + 3)
    writeWord directory (directoryIndex * 8) entry
    let reserved ← callPhys fun s => physReserveAllocatedPage s newTable
    if reserved ≠ 1 then pure 0 else pure newTable

/-- The end of `virt_map_page`: the entry of the page. -/
def writeEntry (virtualAddress physicalAddress flags table result : Int) : Virt Int := do
  let tableIndex := virtualAddress / 4096 % 512
  let entry ← checkedWord (physicalAddress + flags % 4096)
  writeWord table (tableIndex * 8) entry
  pure result

def virtMapPage (virtualAddress physicalAddress flags : Int) : Virt Int :=
  if virtualAddress < 0 ∨ virtualAddress ≥ 1073741824 ∨ physicalAddress < 0 ∨ physicalAddress ≥ 1073741824 then pure 0
  else if virtualAddress % 4096 ≠ 0 ∨ physicalAddress % 4096 ≠ 0 ∨ flags < 0 ∨ flags ≥ 4096 ∨ flags % 2 = 0 then pure 0
  else do
    let directoryIndex := virtualAddress / 2097152 % 512
    let pde ← readWord directory (directoryIndex * 8)
    if pde.tmod 2 = 0 then pure 0
    else if (pde.tdiv 128).tmod 2 = 1 then do
      let table ← splitEntry directory directoryIndex pde
      if table = 0 then pure 0 else writeEntry virtualAddress physicalAddress flags table 1
    else do
      let table ← checkedWord (pde - pde.tmod 4096)
      writeEntry virtualAddress physicalAddress flags table 2

end Vnt.Os

/-!
## What the tables map

The directory and its tables as one map from pages to pages. An entry of the directory is a 2-MiB identity entry, or
points to a table of its own; the map is read off memory, and depends on the frames of the directory and of the tables only.
-/

namespace Vnt.Os

open Lib

/-- The frames that the entries of the directory point to. -/
abbrev Tables := Int → Option Int

/-- A present 4-KiB entry. -/
def SmallEntry (entry : Int) : Prop := entry % 2 = 1 ∧ 0 ≤ entry ∧ entry < 1073741824

/-- A present 2-MiB entry that maps its own addresses. -/
def HugeEntry (index entry : Int) : Prop :=
  entry % 2 = 1 ∧ entry / 128 % 2 = 1 ∧ index * 2097152 ≤ entry ∧ entry < (index + 1) * 2097152

/-- The entry of the directory at an index, and the table behind it. -/
def EntryIs (mem : Memory) (directory index : Int) : Option Int → Prop
  | none => HugeEntry index (u64At mem (directory + index * 8))
  | some table => u64At mem (directory + index * 8) = table * 4096 + 3 ∧ (0 ≤ table ∧ table < 262144) ∧
      ∀ i, 0 ≤ i → i < 512 → SmallEntry (u64At mem (table * 4096 + i * 8))

/-- The directory and its tables. -/
structure PageTables (directory : Int) (tables : Tables) (mem : Memory) : Prop where
  entry : ∀ index, 0 ≤ index → index < 512 → EntryIs mem directory index (tables index)
  own : ∀ index other table, tables index = some table → tables other = some table → index = other
  apart : ∀ index, tables index ≠ some (directory / 4096)

/-- Where the directory lies. -/
structure PlacedDirectory (directory : Int) : Prop where
  aligned : directory % 4096 = 0
  low : 0 ≤ directory
  high : directory + 4096 ≤ 1073741824

/-- The page that a page is mapped to. -/
def pageAt (tables : Tables) (mem : Memory) (page : Int) : Int :=
  match tables (page / 512) with
  | none => page
  | some table => u64At mem (table * 4096 + page % 512 * 8) / 4096

/-- The frames that hold the directory and the tables. -/
def Paging (directory : Int) (tables : Tables) (frame : Int) : Prop :=
  frame = directory / 4096 ∨ ∃ index, tables index = some frame

variable {directory address offset value : Int} {tables : Tables} {mem mem' : Memory} {s : VirtState}

/-! ## Reads and writes -/

theorem checkedWord_run {z : Int} (h : InWord z) : checkedWord z s = .ok (z, s) := by
  rw [checkedWord, if_pos h]
  rfl

theorem readWord_run (hlow : 0 ≤ address + offset) (hhigh : address + offset + 8 ≤ 1073741824) :
    readWord address offset s = .ok (u64At s.memory (address + offset), s) := by
  have heffective : (address + offset) % 18446744073709551616 = address + offset := by omega
  have hget : (Prog.get : Virt VirtState) s = .ok (s, s) := rfl
  rw [readWord, Prog.bind_run_ok hget]
  simp only [heffective]
  rw [if_pos (show address + offset + 8 ≤ memoryEnd from hhigh)]
  rfl

theorem writeWord_run (hlow : 0 ≤ address + offset) (hhigh : address + offset + 8 ≤ 1073741824) :
    writeWord address offset value s = .ok ((), { s with memory := store s.memory (address + offset) 8 value }) := by
  have heffective : (address + offset) % 18446744073709551616 = address + offset := by omega
  unfold writeWord
  simp only [heffective]
  rw [if_pos (show address + offset + 8 ≤ memoryEnd from hhigh)]
  rfl

/-! ## The frames that matter -/

theorem PageTables.congr (h : PageTables directory tables mem) (hplaced : PlacedDirectory directory)
    (hsame : ∀ a, Paging directory tables (a / 4096) → mem' a = mem a) : PageTables directory tables mem' := by
  refine ⟨fun index h₀ h₁ => ?_, h.own, h.apart⟩
  have halign := hplaced.aligned
  have hentry := h.entry index h₀ h₁
  have hword : u64At mem' (directory + index * 8) = u64At mem (directory + index * 8) :=
    u64At_congr fun a ha hb => hsame a (.inl (by omega))
  cases htable : tables index with
  | none =>
      rw [htable] at hentry
      show HugeEntry index (u64At mem' (directory + index * 8))
      rw [hword]
      exact hentry
  | some table =>
      rw [htable] at hentry
      obtain ⟨hpde, hrange, hsmall⟩ := hentry
      refine ⟨hword.trans hpde, hrange, fun i hi₀ hi₁ => ?_⟩
      have hpte : u64At mem' (table * 4096 + i * 8) = u64At mem (table * 4096 + i * 8) :=
        u64At_congr fun a ha hb => hsame a (.inr ⟨index, htable.trans (congrArg some (by omega))⟩)
      rw [hpte]
      exact hsmall i hi₀ hi₁

theorem pageAt_congr (hsame : ∀ a, Paging directory tables (a / 4096) → mem' a = mem a) (page : Int) :
    pageAt tables mem' page = pageAt tables mem page := by
  unfold pageAt
  cases htable : tables (page / 512) with
  | none => rfl
  | some table =>
      simp only
      rw [u64At_congr fun a ha hb => hsame a (.inr ⟨page / 512, htable.trans (congrArg some (by omega))⟩)]

/-! ## Translation -/

theorem HugeEntry.word {index entry : Int} (h : HugeEntry index entry) (h₀ : 0 ≤ index) (h₁ : index < 512) :
    entry.tmod 2 = 1 ∧ (entry.tdiv 128).tmod 2 = 1 ∧ entry - entry.tmod 2097152 = index * 2097152 ∧
      InWord (index * 2097152) := by
  obtain ⟨hpresent, hhuge, hlow, hhigh⟩ := h
  have hpos : 0 ≤ entry := by omega
  rw [Int.tmod_eq_emod_of_nonneg hpos, Int.tmod_eq_emod_of_nonneg (Int.tdiv_nonneg hpos (by decide)),
    Int.tdiv_eq_ediv_of_nonneg hpos, Int.tmod_eq_emod_of_nonneg hpos, InWord]
  omega

theorem tableEntry_word {table : Int} (h₀ : 0 ≤ table) (h₁ : table < 262144) :
    (table * 4096 + 3).tmod 2 = 1 ∧ ((table * 4096 + 3).tdiv 128).tmod 2 = 0 ∧
      table * 4096 + 3 - (table * 4096 + 3).tmod 4096 = table * 4096 ∧ InWord (table * 4096) := by
  have hpos : 0 ≤ table * 4096 + 3 := by omega
  rw [Int.tmod_eq_emod_of_nonneg hpos, Int.tmod_eq_emod_of_nonneg (Int.tdiv_nonneg hpos (by decide)),
    Int.tdiv_eq_ediv_of_nonneg hpos, Int.tmod_eq_emod_of_nonneg hpos, InWord]
  omega

/-- `virt_translate` maps the page and keeps the offset. -/
theorem virtTranslate_run (h : PageTables directory tables s.memory) (hplaced : PlacedDirectory directory)
    (h₀ : 0 ≤ address) (h₁ : address < 1073741824) : virtTranslate directory address s =
      .ok (pageAt tables s.memory (address / 4096) * 4096 + address % 4096, s) := by
  have hlow := hplaced.low
  have hhigh := hplaced.high
  obtain ⟨index, hindex⟩ : ∃ index, address / 2097152 = index := ⟨_, rfl⟩
  have hmod : address / 2097152 % 512 = index := by omega
  have hpage : address / 4096 / 512 = index := by omega
  have hentry := h.entry index (by omega) (by omega)
  rw [virtTranslate, if_neg (by omega)]
  simp only [hmod]
  rw [Prog.bind_run_ok (readWord_run (by omega) (by omega))]
  unfold pageAt
  rw [hpage]
  cases htable : tables index with
  | none =>
      rw [htable] at hentry
      obtain ⟨hpresent, hhuge, hbase, hword⟩ := HugeEntry.word hentry (by omega) (by omega)
      rw [hpresent, if_neg (by decide), hhuge, if_pos rfl, hbase, Prog.bind_run_ok (checkedWord_run hword),
        checkedWord_run ⟨by omega, by omega⟩]
      have hsame : index * 2097152 + address % 2097152 = address / 4096 * 4096 + address % 4096 := by omega
      rw [hsame]
  | some table =>
      rw [htable] at hentry
      obtain ⟨hpde, hrange, hsmall⟩ := hentry
      obtain ⟨hpresent, hhuge, hbase, hword⟩ := tableEntry_word hrange.1 hrange.2
      have hpte := hsmall (address / 4096 % 512) (by omega) (by omega)
      rw [hpde, hpresent, if_neg (by decide), hhuge, if_neg (by decide), hbase,
        Prog.bind_run_ok (checkedWord_run hword), Prog.bind_run_ok (readWord_run (by omega) (by omega))]
      simp only
      generalize u64At s.memory (table * 4096 + address / 4096 % 512 * 8) = entry at hpte ⊢
      obtain ⟨hodd, hpos, hfits⟩ := hpte
      have hin : InWord (entry - entry % 4096) ∧ InWord (entry - entry % 4096 + address % 4096) := by
        unfold InWord
        omega
      rw [Int.tmod_eq_emod_of_nonneg hpos, Int.tmod_eq_emod_of_nonneg hpos, hodd, if_neg (by decide),
        Prog.bind_run_ok (checkedWord_run hin.1), checkedWord_run hin.2]
      have hsame : entry - entry % 4096 = entry / 4096 * 4096 := by omega
      rw [hsame]

theorem virtTranslate_outside (h : address < 0 ∨ address ≥ 1073741824) :
    virtTranslate directory address s = .ok (-1, s) := by
  rw [virtTranslate, if_pos h]
  rfl

/-! ## What a write does to the map -/

variable {index table i frame : Int}

/-- A small entry is written. -/
theorem PageTables.remap (h : PageTables directory tables mem) (hplaced : PlacedDirectory directory)
    (htable : tables index = some table) (hi₀ : 0 ≤ i) (hi₁ : i < 512) (hvalue : SmallEntry value) :
    PageTables directory tables (store mem (table * 4096 + i * 8) 8 value) ∧
      ∀ page, pageAt tables (store mem (table * 4096 + i * 8) 8 value) page =
        if page = index * 512 + i then value / 4096 else pageAt tables mem page := by
  have hself : u64At (store mem (table * 4096 + i * 8) 8 value) (table * 4096 + i * 8) = value :=
    u64At_store mem _ hvalue.2.1 (by have := hvalue.2.2; omega)
  -- another entry of this table, or an entry of another table
  have hother : ∀ other t j, tables other = some t → 0 ≤ j → j < 512 → (other ≠ index ∨ j ≠ i) →
      u64At (store mem (table * 4096 + i * 8) 8 value) (t * 4096 + j * 8) = u64At mem (t * 4096 + j * 8) := by
    intro other t j ht hj₀ hj₁ hne
    refine u64At_congr fun a ha hb => store_other mem 8 ?_
    by_cases hsame : t = table
    · have := h.own other index t ht (hsame ▸ htable)
      omega
    · omega
  have halign := hplaced.aligned
  have hframe : table ≠ directory / 4096 := fun hd => h.apart index (by rw [← hd]; exact htable)
  constructor
  · refine ⟨fun other ho₀ ho₁ => ?_, h.own, h.apart⟩
    have hentry := h.entry other ho₀ ho₁
    have hpde : u64At (store mem (table * 4096 + i * 8) 8 value) (directory + other * 8) =
        u64At mem (directory + other * 8) := u64At_congr fun a ha hb => store_other mem 8 (by omega)
    cases ht : tables other with
    | none =>
        rw [ht] at hentry
        unfold EntryIs
        rw [hpde]
        exact hentry
    | some t =>
        rw [ht] at hentry
        obtain ⟨hword, hrange, hsmall⟩ := hentry
        refine ⟨hpde.trans hword, hrange, fun j hj₀ hj₁ => ?_⟩
        by_cases hsame : other = index ∧ j = i
        · obtain rfl : t = table := by
            rw [hsame.1, htable] at ht
            exact (Option.some.inj ht).symm
          rw [hsame.2, hself]
          exact hvalue
        · rw [hother other t j ht hj₀ hj₁ (by omega)]
          exact hsmall j hj₀ hj₁
  · intro page
    unfold pageAt
    cases ht : tables (page / 512) with
    | none =>
        have hne : page / 512 ≠ index := fun he => by rw [he, htable] at ht; cases ht
        rw [if_neg (by omega)]
    | some t =>
        simp only
        by_cases hsame : page = index * 512 + i
        · have hpage : page / 512 = index ∧ page % 512 = i := by omega
          obtain rfl : t = table := by
            rw [hpage.1, htable] at ht
            exact (Option.some.inj ht).symm
          rw [if_pos hsame, hpage.2, hself]
        · rw [if_neg hsame, hother _ t (page % 512) ht (by omega) (by omega) (by omega)]

/-- An entry of the directory points to a new table with the same pages. -/
theorem PageTables.split (h : PageTables directory tables mem) (hplaced : PlacedDirectory directory) (h₀ : 0 ≤ index)
    (h₁ : index < 512) (htable : tables index = none) (hframe : 0 ≤ frame ∧ frame < 262144)
    (hfresh : ¬ Paging directory tables frame)
    (hfilled : ∀ i, 0 ≤ i → i < 512 → u64At mem' (frame * 4096 + i * 8) = index * 2097152 + i * 4096 + 3)
    (hsame : ∀ a, a / 4096 ≠ frame → mem' a = mem a) :
    PageTables directory (Function.update tables index (some frame))
        (store mem' (directory + index * 8) 8 (frame * 4096 + 3)) ∧
      ∀ page, pageAt (Function.update tables index (some frame))
        (store mem' (directory + index * 8) 8 (frame * 4096 + 3)) page = pageAt tables mem page := by
  have halign := hplaced.aligned
  have hpaging : ∀ a, Paging directory tables (a / 4096) → mem' a = mem a := fun a ha =>
    hsame a fun he => hfresh (he ▸ ha)
  have h' := h.congr hplaced hpaging
  have hdirectory : frame ≠ directory / 4096 := fun he => hfresh (.inl he)
  have hnew : ∀ other, tables other ≠ some frame := fun other ht => hfresh (.inr ⟨other, ht⟩)
  have hself : u64At (store mem' (directory + index * 8) 8 (frame * 4096 + 3)) (directory + index * 8) =
      frame * 4096 + 3 := u64At_store mem' _ (by omega) (by omega)
  have hentry : ∀ other, other ≠ index → u64At (store mem' (directory + index * 8) 8 (frame * 4096 + 3))
      (directory + other * 8) = u64At mem' (directory + other * 8) := fun other hne =>
    u64At_congr fun a ha hb => store_other mem' 8 (by omega)
  have hpte : ∀ t j, t ≠ directory / 4096 → 0 ≤ j → j < 512 →
      u64At (store mem' (directory + index * 8) 8 (frame * 4096 + 3)) (t * 4096 + j * 8) =
        u64At mem' (t * 4096 + j * 8) := fun t j hne hj₀ hj₁ =>
    u64At_congr fun a ha hb => store_other mem' 8 (by omega)
  constructor
  · refine ⟨fun other ho₀ ho₁ => ?_, fun other other' t ht ht' => ?_, fun other ht => ?_⟩
    · by_cases hsame' : other = index
      · subst hsame'
        rw [Function.update_self]
        refine ⟨hself, hframe, fun i hi₀ hi₁ => ?_⟩
        rw [hpte frame i hdirectory hi₀ hi₁, hfilled i hi₀ hi₁, SmallEntry]
        omega
      · rw [Function.update_of_ne hsame']
        have hold := h'.entry other ho₀ ho₁
        cases ht : tables other with
        | none =>
            rw [ht] at hold
            unfold EntryIs
            rw [hentry other hsame']
            exact hold
        | some t =>
            rw [ht] at hold
            obtain ⟨hword, hrange, hsmall⟩ := hold
            have hapart : t ≠ directory / 4096 := fun he => h.apart other (by rw [← he]; exact ht)
            refine ⟨(hentry other hsame').trans hword, hrange, fun j hj₀ hj₁ => ?_⟩
            rw [hpte t j hapart hj₀ hj₁]
            exact hsmall j hj₀ hj₁
    · by_cases ho : other = index
      · by_cases ho' : other' = index
        · exact ho.trans ho'.symm
        · rw [ho, Function.update_self] at ht
          rw [Function.update_of_ne ho', ← Option.some.inj ht] at ht'
          exact absurd ht' (hnew other')
      · rw [Function.update_of_ne ho] at ht
        by_cases ho' : other' = index
        · rw [ho', Function.update_self] at ht'
          rw [← Option.some.inj ht'] at ht
          exact absurd ht (hnew other)
        · rw [Function.update_of_ne ho'] at ht'
          exact h.own other other' t ht ht'
    · by_cases ho : other = index
      · rw [ho, Function.update_self] at ht
        exact hdirectory (Option.some.inj ht)
      · rw [Function.update_of_ne ho] at ht
        exact h.apart other ht
  · intro page
    rw [← pageAt_congr hpaging page]
    unfold pageAt
    by_cases hpage : page / 512 = index
    · rw [hpage, Function.update_self, htable]
      simp only
      rw [hpte frame (page % 512) hdirectory (by omega) (by omega), hfilled _ (by omega) (by omega)]
      omega
    · rw [Function.update_of_ne hpage]
      cases ht : tables (page / 512) with
      | none => rfl
      | some t =>
          have hapart : t ≠ directory / 4096 := fun he => h.apart _ (by rw [← he]; exact ht)
          simp only
          rw [hpte t (page % 512) hapart (by omega) (by omega)]

end Vnt.Os
