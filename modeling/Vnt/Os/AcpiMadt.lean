import Vnt.Os.AcpiTables

/-!
# `Os.AcpiMadt` — one pass over the MADT

The entries of a MADT as its bytes have them, from the left to the right, or that one of them is malformed; and what
the state has to say of a list of entries: the processors, the controllers and the overrides that have a slot. The loop
of `acpi_discover` makes this one pass.
-/

namespace Vnt.Os

open Lib

variable {mem : Memory} {s : Slots} {madt length cursor : Int}

/-- What discovery takes from an entry. -/
inductive MadtEntry where
  | cpu (id : Int)
  | ioapic (address base : Int)
  | override (source gsi flags : Int)
  | lapic (address : Int)
  | other
  deriving DecidableEq, Repr

/-- A processor that is enabled or can be. -/
def cpuEntry (flags id : Int) : MadtEntry := if flags % 2 = 1 ∨ flags / 2 % 2 = 1 then .cpu id else .other

/-- The entry at an address. -/
def entryOf (mem : Memory) (address entryType : Int) : MadtEntry :=
  if entryType = 0 then cpuEntry (u32At mem (address + 4)) (u8At mem (address + 3))
  else if entryType = 1 then .ioapic (u32At mem (address + 4)) (u32At mem (address + 8))
  else if entryType = 2 then
    .override (u8At mem (address + 3)) (u32At mem (address + 4)) (u8At mem (address + 8) + u8At mem (address + 9) * 256)
  else if entryType = 5 then .lapic (u64At mem (address + 4))
  else if entryType = 9 then cpuEntry (u32At mem (address + 8)) (u32At mem (address + 4))
  else .other

/-- The entries from `cursor` on; `none` when one of them is malformed. -/
def madtEntries (mem : Memory) (madt length : Int) : Nat → Int → Option (List MadtEntry)
  | 0, _ => none
  | fuel + 1, cursor =>
      if cursor + 2 ≤ length then
        let entryType := u8At mem (madt + cursor)
        let entryLength := u8At mem (madt + (cursor + 1))
        if entryLength < 2 ∨ cursor + entryLength > length ∨ entryLength < leastLength entryType then none
        else
          (madtEntries mem madt length fuel (cursor + entryLength)).map fun entries =>
            entryOf mem (madt + cursor) entryType :: entries
      else some []

/-- All entries of a MADT. -/
def entriesOf (mem : Memory) (madt : Int) : Option (List MadtEntry) :=
  madtEntries mem madt (tableLength mem madt) ((tableLength mem madt).toNat + 1) 44

/-! ## What the entries say -/

def cpus (entries : List MadtEntry) : List Int := entries.filterMap fun
  | .cpu id => some id
  | _ => none

def ioapics (entries : List MadtEntry) : List (Int × Int) := entries.filterMap fun
  | .ioapic address base => some (address, base)
  | _ => none

def overrides (entries : List MadtEntry) : List (Int × Int × Int) := entries.filterMap fun
  | .override source gsi flags => some (source, gsi, flags)
  | _ => none

/-- The address of the local APICs: what the last entry with one says, or else the header. -/
def lapicAddress (header : Int) (entries : List MadtEntry) : Int :=
  entries.foldl (fun address entry =>
    match entry with
    | .lapic override => if override = 0xfee00000 then 0xfee00000 else 0
    | _ => address) header

/-- The state says what the entries say; sixteen processors and sixteen overrides have a slot. -/
structure Inventory (header : Int) (entries : List MadtEntry) (s : Slots) : Prop where
  cpuCount : s 36 = (cpus entries).length
  cpuIds : ∀ i : Nat, i < 16 → ∀ id, (cpus entries)[i]? = some id → s (40 + i) = id
  ioapicCount : s 37 = (ioapics entries).length
  ioapicFirst : (s 34, s 35) = (ioapics entries).head?.getD (0, 0)
  overrideCount : s 38 = min (overrides entries).length 16
  overrideSlots : ∀ i : Nat, i < 16 → ∀ source gsi flags, (overrides entries)[i]? = some (source, gsi, flags) →
    s (64 + i * 3) = source ∧ s (65 + i * 3) = gsi ∧ s (66 + i * 3) = flags
  lapic : s 33 = lapicAddress header entries

/-! ## Publishing an entry -/

/-- The state after an entry has been published. -/
def MadtEntry.publish (s : Slots) : MadtEntry → Slots
  | .cpu id => Function.update (if s 36 < 16 then Function.update s (40 + s 36) id else s) 36 (s 36 + 1)
  | .ioapic address base =>
      Function.update (if s 37 = 0 then Function.update (Function.update s 34 address) 35 base else s) 37 (s 37 + 1)
  | .override source gsi flags =>
      if s 38 < 16 then
        Function.update (Function.update (Function.update (Function.update s (64 + s 38 * 3) source)
          (65 + s 38 * 3) gsi) (66 + s 38 * 3) flags) 38 (s 38 + 1)
      else s
  | .lapic address => Function.update s 33 (if address = 0xfee00000 then 0xfee00000 else 0)
  | .other => s

/-- The counters of the state are small. -/
structure Counted (s : Slots) : Prop where
  cpus : 0 ≤ s 36 ∧ s 36 < 4611686018427387904
  ioapics : 0 ≤ s 37 ∧ s 37 < 4611686018427387904
  overrides : 0 ≤ s 38 ∧ s 38 < 4611686018427387904

theorem stateGet_run (index : Int) : stateGet index s = .ok (s index, s) := rfl

theorem stateSet_run (index value : Int) : stateSet index value s = .ok ((), Function.update s index value) := rfl

theorem publishCpu_run (h : Counted s) {flags value : Int} {id : Kernel Int} (hid : ∀ s, id s = .ok (value, s)) :
    publishCpu flags id s = .ok ((), (cpuEntry flags value).publish s) := by
  unfold publishCpu cpuEntry
  by_cases hflags : flags % 2 = 1 ∨ flags / 2 % 2 = 1
  swap
  · rw [if_neg hflags, if_neg hflags]
    rfl
  have hcount := h.cpus
  have hstore : storeCpuId (s 36) id s =
      .ok ((), if s 36 < 16 then Function.update s (40 + s 36) value else s) := by
    unfold storeCpuId
    by_cases hroom : s 36 < 16
    · rw [if_pos hroom, if_pos hroom, Prog.bind_run_ok (hid s), Prog.bind_run_ok (addWord_run (by omega) (by omega)),
        stateSet_run]
    · rw [if_neg hroom, if_neg hroom]
      rfl
  rw [if_pos hflags, if_pos hflags, Prog.bind_run_ok (stateGet_run 36), Prog.bind_run_ok hstore,
    Prog.bind_run_ok (addWord_run (by omega) (by omega)), stateSet_run]
  rfl

theorem publishIoapic_run (h : Counted s) (hmadt : 0 ≤ madt) (hcursor : 0 ≤ cursor)
    (hstop : madt + cursor + 12 ≤ 1073741824) : publishIoapic mem madt cursor s =
      .ok ((), (MadtEntry.ioapic (u32At mem (madt + cursor + 4)) (u32At mem (madt + cursor + 8))).publish s) := by
  have hcount := h.ioapics
  have hstore : storeIoapic mem madt cursor (s 37) s = .ok ((), if s 37 = 0 then
      Function.update (Function.update s 34 (u32At mem (madt + cursor + 4))) 35 (u32At mem (madt + cursor + 8))
      else s) := by
    unfold storeIoapic
    by_cases hfirst : s 37 = 0
    · rw [if_pos hfirst, if_pos hfirst, Prog.bind_run_ok (addWord_run (by omega) (by omega)),
        Prog.bind_run_ok (acpiRead32_run (by omega) (by omega)), Prog.bind_run_ok (stateSet_run _ _),
        Prog.bind_run_ok (addWord_run (by omega) (by omega)),
        Prog.bind_run_ok (acpiRead32_run (by omega) (by omega)), stateSet_run, Int.add_assoc, Int.add_assoc]
    · rw [if_neg hfirst, if_neg hfirst]
      rfl
  rw [publishIoapic, Prog.bind_run_ok (stateGet_run 37), Prog.bind_run_ok hstore,
    Prog.bind_run_ok (addWord_run (by omega) (by omega)), stateSet_run]
  rfl

theorem publishOverride_run (h : Counted s) (hmadt : 0 ≤ madt) (hcursor : 0 ≤ cursor)
    (hstop : madt + cursor + 10 ≤ 1073741824) : publishOverride mem madt cursor s =
      .ok ((), (MadtEntry.override (u8At mem (madt + cursor + 3)) (u32At mem (madt + cursor + 4))
        (u8At mem (madt + cursor + 8) + u8At mem (madt + cursor + 9) * 256)).publish s) := by
  have hcount := h.overrides
  have hlow := u8At_range mem (madt + (cursor + 8))
  have hhigh := u8At_range mem (madt + (cursor + 9))
  rw [publishOverride, Prog.bind_run_ok (stateGet_run 38)]
  unfold MadtEntry.publish
  by_cases hroom : s 38 < 16
  swap
  · rw [if_neg hroom]
    simp only [if_neg hroom]
    rfl
  rw [if_pos hroom, Prog.bind_run_ok (mulWord_run (by omega) (by omega)),
    Prog.bind_run_ok (addWord_run (by omega) (by omega)), Prog.bind_run_ok (acpiRead8_run (by omega) (by omega)),
    Prog.bind_run_ok (addWord_run (by omega) (by omega)), Prog.bind_run_ok (stateSet_run _ _),
    Prog.bind_run_ok (addWord_run (by omega) (by omega)), Prog.bind_run_ok (acpiRead32_run (by omega) (by omega)),
    Prog.bind_run_ok (addWord_run (by omega) (by omega)), Prog.bind_run_ok (stateSet_run _ _),
    Prog.bind_run_ok (addWord_run (by omega) (by omega)), Prog.bind_run_ok (acpiRead8_run (by omega) (by omega)),
    Prog.bind_run_ok (addWord_run (by omega) (by omega)), Prog.bind_run_ok (acpiRead8_run (by omega) (by omega)),
    Prog.bind_run_ok (mulWord_run (by omega) (by omega)), Prog.bind_run_ok (addWord_run (by omega) (by omega)),
    Prog.bind_run_ok (addWord_run (by omega) (by omega)), Prog.bind_run_ok (stateSet_run _ _),
    Prog.bind_run_ok (addWord_run (by omega) (by omega)), stateSet_run]
  simp only [if_pos hroom, Int.add_assoc]

theorem publishLapicAddress_run (hmadt : 0 ≤ madt) (hcursor : 0 ≤ cursor) (hstop : madt + cursor + 12 ≤ 1073741824) :
    publishLapicAddress mem madt cursor s = .ok ((), (MadtEntry.lapic (u64At mem (madt + cursor + 4))).publish s) := by
  rw [publishLapicAddress, Prog.bind_run_ok (addWord_run (by omega) (by omega)),
    Prog.bind_run_ok (acpiRead64_run (by omega) (by omega)), Int.add_assoc]
  unfold MadtEntry.publish
  by_cases haddress : u64At mem (madt + (cursor + 4)) = 0xfee00000
  · rw [if_pos haddress, stateSet_run]
    simp only [if_pos haddress]
  · rw [if_neg haddress, stateSet_run]
    simp only [if_neg haddress]

/-- **An entry that is long enough is published.** -/
theorem publishEntry_run (h : Counted s) {entryType : Int} (hmadt : 0 ≤ madt) (hcursor : 0 ≤ cursor)
    (hstop : madt + cursor + leastLength entryType ≤ 1073741824) :
    publishEntry mem madt cursor entryType s = .ok ((), (entryOf mem (madt + cursor) entryType).publish s) := by
  unfold leastLength at hstop
  unfold publishEntry entryOf
  by_cases h0 : entryType = 0
  · rw [if_pos h0] at hstop
    rw [if_pos h0, if_pos h0, Prog.bind_run_ok (addWord_run (by omega) (by omega)),
      Prog.bind_run_ok (acpiRead32_run (by omega) (by omega)), Int.add_assoc, Int.add_assoc]
    apply publishCpu_run h
    intro s
    rw [Prog.bind_run_ok (addWord_run (by omega) (by omega)), acpiRead8_run (by omega) (by omega)]
  rw [if_neg h0] at hstop
  rw [if_neg h0, if_neg h0]
  by_cases h1 : entryType = 1
  · rw [if_pos h1] at hstop
    rw [if_pos h1, if_pos h1]
    exact publishIoapic_run h hmadt hcursor hstop
  rw [if_neg h1] at hstop
  rw [if_neg h1, if_neg h1]
  by_cases h2 : entryType = 2
  · rw [if_pos h2] at hstop
    rw [if_pos h2, if_pos h2]
    exact publishOverride_run h hmadt hcursor hstop
  rw [if_neg h2] at hstop
  rw [if_neg h2, if_neg h2]
  by_cases h5 : entryType = 5
  · rw [if_pos h5] at hstop
    rw [if_pos h5, if_pos h5]
    exact publishLapicAddress_run hmadt hcursor hstop
  rw [if_neg h5] at hstop
  rw [if_neg h5, if_neg h5]
  by_cases h9 : entryType = 9
  · rw [if_pos h9] at hstop
    rw [if_pos h9, if_pos h9, Prog.bind_run_ok (addWord_run (by omega) (by omega)),
      Prog.bind_run_ok (acpiRead32_run (by omega) (by omega)), Int.add_assoc, Int.add_assoc]
    apply publishCpu_run h
    intro s
    rw [Prog.bind_run_ok (addWord_run (by omega) (by omega)), acpiRead32_run (by omega) (by omega)]
  · rw [if_neg h9, if_neg h9]
    rfl

/-! ## The inventory -/

/-- The slots that an entry may change. -/
def MadtEntry.writes : MadtEntry → Int → Prop
  | .cpu _, k => k = 36 ∨ 40 ≤ k ∧ k < 56
  | .ioapic _ _, k => k = 34 ∨ k = 35 ∨ k = 37
  | .override _ _ _, k => k = 38 ∨ 64 ≤ k ∧ k < 112
  | .lapic _, k => k = 33
  | .other, _ => False

theorem publish_frame (h : Counted s) (entry : MadtEntry) {k : Int} (hk : ¬ entry.writes k) :
    entry.publish s k = s k := by
  cases entry with
  | cpu id =>
      have hcount := h.cpus
      simp only [MadtEntry.writes, not_or] at hk
      rw [MadtEntry.publish, Function.update_of_ne hk.1]
      by_cases hroom : s 36 < 16
      · rw [if_pos hroom, Function.update_of_ne (by omega)]
      · rw [if_neg hroom]
  | ioapic address base =>
      simp only [MadtEntry.writes, not_or] at hk
      rw [MadtEntry.publish, Function.update_of_ne hk.2.2]
      by_cases hfirst : s 37 = 0
      · rw [if_pos hfirst, Function.update_of_ne hk.2.1, Function.update_of_ne hk.1]
      · rw [if_neg hfirst]
  | override source gsi flags =>
      have hcount := h.overrides
      simp only [MadtEntry.writes, not_or] at hk
      rw [MadtEntry.publish]
      by_cases hroom : s 38 < 16
      · rw [if_pos hroom, Function.update_of_ne hk.1, Function.update_of_ne (by omega), Function.update_of_ne (by omega),
          Function.update_of_ne (by omega)]
      · rw [if_neg hroom]
  | lapic address => exact Function.update_of_ne hk _ _
  | other => rfl

theorem Inventory.counted {header : Int} {entries : List MadtEntry} (h : Inventory header entries s)
    (hfew : entries.length < 4611686018427387904) : Counted s := by
  have hcpus : (cpus entries).length ≤ entries.length := List.length_filterMap_le _ _
  have hioapics : (ioapics entries).length ≤ entries.length := List.length_filterMap_le _ _
  have h36 := h.cpuCount
  have h37 := h.ioapicCount
  have h38 := h.overrideCount
  exact ⟨by omega, by omega, by omega⟩

/-- What one more entry adds to each list. -/
theorem lists_snoc (entries : List MadtEntry) (entry : MadtEntry) :
    cpus (entries ++ [entry]) = cpus entries ++ cpus [entry] ∧
      ioapics (entries ++ [entry]) = ioapics entries ++ ioapics [entry] ∧
      overrides (entries ++ [entry]) = overrides entries ++ overrides [entry] ∧
      ∀ header, lapicAddress header (entries ++ [entry]) = lapicAddress (lapicAddress header entries) [entry] :=
  ⟨List.filterMap_append, List.filterMap_append, List.filterMap_append, fun _ => List.foldl_append⟩

/-- An entry beside processors leaves their slots alone. -/
theorem Inventory.cpus_kept {header : Int} {entries : List MadtEntry} (h : Inventory header entries s)
    (entry : MadtEntry) (s' : Slots) (hkeep : ∀ k, k = 36 ∨ 40 ≤ k ∧ k < 56 → s' k = s k) (hno : cpus [entry] = []) :
    s' 36 = (cpus (entries ++ [entry])).length ∧
      ∀ i : Nat, i < 16 → ∀ id, (cpus (entries ++ [entry]))[i]? = some id → s' (40 + i) = id := by
  rw [(lists_snoc entries entry).1, hno, List.append_nil]
  refine ⟨(hkeep 36 (.inl rfl)).trans h.cpuCount, fun i hi id hid => ?_⟩
  rw [hkeep _ (.inr (by omega))]
  exact h.cpuIds i hi id hid

theorem Inventory.ioapics_kept {header : Int} {entries : List MadtEntry} (h : Inventory header entries s)
    (entry : MadtEntry) (s' : Slots) (hkeep : ∀ k, k = 34 ∨ k = 35 ∨ k = 37 → s' k = s k) (hno : ioapics [entry] = []) :
    s' 37 = (ioapics (entries ++ [entry])).length ∧
      (s' 34, s' 35) = (ioapics (entries ++ [entry])).head?.getD (0, 0) := by
  rw [(lists_snoc entries entry).2.1, hno, List.append_nil, hkeep 34 (.inl rfl), hkeep 35 (.inr (.inl rfl)),
    hkeep 37 (.inr (.inr rfl))]
  exact ⟨h.ioapicCount, h.ioapicFirst⟩

theorem Inventory.overrides_kept {header : Int} {entries : List MadtEntry} (h : Inventory header entries s)
    (entry : MadtEntry) (s' : Slots) (hkeep : ∀ k, k = 38 ∨ 64 ≤ k ∧ k < 112 → s' k = s k) (hno : overrides [entry] = []) :
    s' 38 = min (overrides (entries ++ [entry])).length 16 ∧
      ∀ i : Nat, i < 16 → ∀ source gsi flags, (overrides (entries ++ [entry]))[i]? = some (source, gsi, flags) →
        s' (64 + i * 3) = source ∧ s' (65 + i * 3) = gsi ∧ s' (66 + i * 3) = flags := by
  rw [(lists_snoc entries entry).2.2.1, hno, List.append_nil]
  refine ⟨(hkeep 38 (.inl rfl)).trans h.overrideCount, fun i hi source gsi flags hget => ?_⟩
  rw [hkeep _ (.inr (by omega)), hkeep _ (.inr (by omega)), hkeep _ (.inr (by omega))]
  exact h.overrideSlots i hi source gsi flags hget

theorem Inventory.lapic_kept {header : Int} {entries : List MadtEntry} (h : Inventory header entries s)
    (entry : MadtEntry) (s' : Slots) (hkeep : s' 33 = s 33) (hno : ∀ address, lapicAddress address [entry] = address) :
    s' 33 = lapicAddress header (entries ++ [entry]) := by
  rw [(lists_snoc entries entry).2.2.2, hno, hkeep]
  exact h.lapic

/-- **Publishing an entry adds it to the inventory.** -/
theorem Inventory.publish {header : Int} {entries : List MadtEntry} (h : Inventory header entries s)
    (hcounted : Counted s) (entry : MadtEntry) : Inventory header (entries ++ [entry]) (entry.publish s) := by
  have hframe : ∀ k, ¬ entry.writes k → entry.publish s k = s k := fun k hk => publish_frame hcounted entry hk
  have hcpu := h.cpus_kept entry (entry.publish s)
  have hioapic := h.ioapics_kept entry (entry.publish s)
  have hoverride := h.overrides_kept entry (entry.publish s)
  have hlapic := h.lapic_kept entry (entry.publish s)
  obtain ⟨hcpus, hioapics, hoverrides, hlapics⟩ := lists_snoc entries entry
  cases entry with
  | cpu id =>
      obtain ⟨hi, hi'⟩ := hioapic (fun k hk => hframe k (by simp only [MadtEntry.writes]; omega)) rfl
      obtain ⟨ho, ho'⟩ := hoverride (fun k hk => hframe k (by simp only [MadtEntry.writes]; omega)) rfl
      have hl := hlapic (hframe 33 (by simp only [MadtEntry.writes]; omega)) fun _ => rfl
      have hcount := h.cpuCount
      refine ⟨?_, fun i hroom id' hid => ?_, hi, hi', ho, ho', hl⟩
      · rw [hcpus, List.length_append, MadtEntry.publish, Function.update_self, hcount]
        rfl
      · rw [hcpus] at hid
        rw [MadtEntry.publish, Function.update_of_ne (by omega)]
        rcases Nat.lt_trichotomy i (cpus entries).length with hlt | heq | hgt
        · rw [List.getElem?_append_left hlt] at hid
          have hold := h.cpuIds i hroom id' hid
          split
          · rw [Function.update_of_ne (by omega)]
            exact hold
          · exact hold
        · rw [heq, List.getElem?_append_right (Nat.le_refl _), Nat.sub_self] at hid
          cases hid
          rw [if_pos (by omega), hcount, heq, Function.update_self]
        · rw [List.getElem?_eq_none (by rw [List.length_append]; exact hgt)] at hid
          cases hid
  | ioapic address base =>
      obtain ⟨hc, hc'⟩ := hcpu (fun k hk => hframe k (by simp only [MadtEntry.writes]; omega)) rfl
      obtain ⟨ho, ho'⟩ := hoverride (fun k hk => hframe k (by simp only [MadtEntry.writes]; omega)) rfl
      have hl := hlapic (hframe 33 (by simp only [MadtEntry.writes]; omega)) fun _ => rfl
      have hcount := h.ioapicCount
      refine ⟨hc, hc', ?_, ?_, ho, ho', hl⟩
      · rw [hioapics, List.length_append, MadtEntry.publish, Function.update_self, hcount]
        rfl
      · rw [hioapics, MadtEntry.publish, Function.update_of_ne (by omega), Function.update_of_ne (by omega)]
        cases hold : ioapics entries with
        | nil =>
            rw [hold] at hcount
            have hzero : s 37 = 0 := hcount
            rw [if_pos hzero, Function.update_of_ne (by omega), Function.update_self, Function.update_self]
            rfl
        | cons first rest =>
            have hfirst := h.ioapicFirst
            rw [hold] at hcount hfirst
            have hsome : s 37 ≠ 0 := by
              rw [hcount, List.length_cons]
              omega
            rw [if_neg hsome, hfirst]
            rfl
  | override source gsi flags =>
      obtain ⟨hc, hc'⟩ := hcpu (fun k hk => hframe k (by simp only [MadtEntry.writes]; omega)) rfl
      obtain ⟨hi, hi'⟩ := hioapic (fun k hk => hframe k (by simp only [MadtEntry.writes]; omega)) rfl
      have hl := hlapic (hframe 33 (by simp only [MadtEntry.writes]; omega)) fun _ => rfl
      have hcount := h.overrideCount
      have hone : (overrides [MadtEntry.override source gsi flags]).length = 1 := rfl
      refine ⟨hc, hc', hi, hi', ?_, fun i hroom source' gsi' flags' hget => ?_, hl⟩
      · rw [hoverrides, List.length_append, MadtEntry.publish, hone]
        split
        · rw [Function.update_self]
          omega
        · omega
      · rw [hoverrides] at hget
        rcases Nat.lt_trichotomy i (overrides entries).length with hlt | heq | hgt
        · rw [List.getElem?_append_left hlt] at hget
          obtain ⟨hsource, hgsi, hflags⟩ := h.overrideSlots i hroom source' gsi' flags' hget
          rw [MadtEntry.publish]
          split
          · have hother : ∀ k, 64 ≤ k → k < 64 + s 38 * 3 → Function.update (Function.update (Function.update
                (Function.update s (64 + s 38 * 3) source) (65 + s 38 * 3) gsi) (66 + s 38 * 3) flags) 38 (s 38 + 1) k =
                s k := by
              intro k h₁ h₂
              rw [Function.update_of_ne (by omega), Function.update_of_ne (by omega), Function.update_of_ne (by omega),
                Function.update_of_ne (by omega)]
            rw [hother _ (by omega) (by omega), hother _ (by omega) (by omega), hother _ (by omega) (by omega)]
            exact ⟨hsource, hgsi, hflags⟩
          · exact ⟨hsource, hgsi, hflags⟩
        · rw [heq, List.getElem?_append_right (Nat.le_refl _), Nat.sub_self] at hget
          cases hget
          have hi38 : s 38 = (i : Int) := by omega
          rw [MadtEntry.publish, if_pos (by omega), hi38]
          refine ⟨?_, ?_, ?_⟩
          · rw [Function.update_of_ne (by omega), Function.update_of_ne (by omega), Function.update_of_ne (by omega),
              Function.update_self]
          · rw [Function.update_of_ne (by omega), Function.update_of_ne (by omega), Function.update_self]
          · rw [Function.update_of_ne (by omega), Function.update_self]
        · rw [List.getElem?_eq_none (by rw [List.length_append]; exact hgt)] at hget
          cases hget
  | lapic address =>
      obtain ⟨hc, hc'⟩ := hcpu (fun k hk => hframe k (by simp only [MadtEntry.writes]; omega)) rfl
      obtain ⟨hi, hi'⟩ := hioapic (fun k hk => hframe k (by simp only [MadtEntry.writes]; omega)) rfl
      obtain ⟨ho, ho'⟩ := hoverride (fun k hk => hframe k (by simp only [MadtEntry.writes]; omega)) rfl
      refine ⟨hc, hc', hi, hi', ho, ho', ?_⟩
      rw [hlapics, MadtEntry.publish, Function.update_self]
      rfl
  | other =>
      obtain ⟨hc, hc'⟩ := hcpu (fun k _ => rfl) rfl
      obtain ⟨hi, hi'⟩ := hioapic (fun k _ => rfl) rfl
      obtain ⟨ho, ho'⟩ := hoverride (fun k _ => rfl) rfl
      exact ⟨hc, hc', hi, hi', ho, ho', hlapic rfl fun _ => rfl⟩

/-! ## The loop -/

/-- **The loop is one pass.** It accepts a MADT with all its entries, and then the state is their inventory, or it
    returns 0 at the first that is malformed. -/
theorem madtLoop_run {header : Int} (hmadt : 0 ≤ madt) (hlength : madt + length ≤ 1073741824) (fuel : Nat) :
    ∀ {cursor : Int} {done : List MadtEntry} {s : Slots}, 0 ≤ cursor → length - cursor < fuel → 0 < fuel →
      done.length ≤ cursor → cursor ≤ length + 256 → Inventory header done s →
      (madtEntries mem madt length fuel cursor = none ∧ ∃ s', madtLoop mem madt length fuel cursor s = .ok (0, s') ∧
        s' 32 = s 32) ∨
      ∃ rest s', madtEntries mem madt length fuel cursor = some rest ∧
        madtLoop mem madt length fuel cursor s = .ok (1, s') ∧ s' 32 = s 32 ∧ Inventory header (done ++ rest) s' := by
  induction fuel with
  | zero =>
      intro cursor done s _ _ h
      exact absurd h (Nat.lt_irrefl 0)
  | succ fuel ih =>
      intro cursor done s hcursor hfuel _ hdone hnear hinv
      rw [madtLoop, madtEntries, Prog.bind_run_ok (addWord_run (by omega) (by omega))]
      by_cases hheader : cursor + 2 ≤ length
      swap
      · rw [if_neg hheader, if_neg hheader]
        refine .inr ⟨[], s, rfl, rfl, rfl, ?_⟩
        rw [List.append_nil]
        exact hinv
      have hrange := u8At_range mem (madt + (cursor + 1))
      rw [if_pos hheader, if_pos hheader, Prog.bind_run_ok (acpiRead8_run (by omega) (by omega)),
        Prog.bind_run_ok (addWord_run (by omega) (by omega)), Prog.bind_run_ok (acpiRead8_run (by omega) (by omega))]
      simp only
      generalize u8At mem (madt + (cursor + 1)) = entryLength at hrange ⊢
      generalize u8At mem (madt + cursor) = entryType
      by_cases hshort : entryLength < 2
      · rw [if_pos hshort, if_pos (.inl hshort)]
        exact .inl ⟨rfl, s, rfl, rfl⟩
      rw [if_neg hshort, Prog.bind_run_ok (addWord_run (by omega) (by omega))]
      by_cases hlong : cursor + entryLength > length
      · rw [if_pos hlong, if_pos (.inr (.inl hlong))]
        exact .inl ⟨rfl, s, rfl, rfl⟩
      rw [if_neg hlong]
      by_cases hleast : entryLength < leastLength entryType
      · rw [if_pos hleast, if_pos (.inr (.inr hleast))]
        exact .inl ⟨rfl, s, rfl, rfl⟩
      have hgood : ¬(entryLength < 2 ∨ cursor + entryLength > length ∨ entryLength < leastLength entryType) := by omega
      have hcounted := hinv.counted (by omega)
      rw [if_neg hleast, if_neg hgood, Prog.bind_run_ok (publishEntry_run hcounted hmadt hcursor (by omega)),
        Prog.bind_run_ok (addWord_run (by omega) (by omega))]
      have hnext := hinv.publish hcounted (entryOf mem (madt + cursor) entryType)
      have hslot : (entryOf mem (madt + cursor) entryType).publish s 32 = s 32 := by
        apply publish_frame hcounted
        cases entryOf mem (madt + cursor) entryType <;> simp [MadtEntry.writes]
      rcases ih (by omega : 0 ≤ cursor + entryLength) (by omega) (by omega)
        (by rw [List.length_append, List.length_singleton]; push_cast; omega) (by omega) hnext with
        ⟨hnone, s', hrun, hkeep⟩ | ⟨rest, s', hsome, hrun, hkeep, hall⟩
      · exact .inl ⟨by rw [hnone]; rfl, s', hrun, hkeep.trans hslot⟩
      · refine .inr ⟨entryOf mem (madt + cursor) entryType :: rest, s', by rw [hsome]; rfl, hrun, hkeep.trans hslot, ?_⟩
        rw [List.append_assoc] at hall
        exact hall

end Vnt.Os
