import Vnt.Os.AcpiTables

/-!
# `Os.AcpiLocate` — the way to the MADT

The RSDP, the root table and the scan of its entries: every read is inside the first GiB and every loop ends, for
whatever bytes the firmware has left. What can stop the code is an address within 36 bytes of the largest number, where
the sums that check whether the header of a table is mapped overflow; `locateMadt_run` says exactly when that happens.
-/

namespace Vnt.Os

open Lib

variable {mem : Memory} {boot : Handoff} {s : Slots} {address info total cursor tagType tagSize root : Int}

/-! ## The RSDP -/

/-- Where an RSDP has been found: what discovery reads of it is mapped. -/
structure RsdpAt (mem : Memory) (rsdp : Int) : Prop where
  pos : 0 < rsdp
  mapped : rsdp + 20 ≤ 1073741824
  extended : 2 ≤ u8At mem (rsdp + 15) → rsdp + 36 ≤ 1073741824

theorem acpiIsRsdp_run (h : RsdpAt mem address) : ∃ r, acpiIsRsdp mem address s = .ok (r, s) := by
  obtain ⟨hpos, hmapped, hextended⟩ := h
  rw [acpiIsRsdp, if_neg (by omega), Prog.bind_run_ok (addWord_run (by omega) (by omega)), if_neg (by omega),
    Prog.bind_run_ok (bytesAre_run _ (by omega) (by simp [rsdpSignature]; omega)), Int.add_zero]
  by_cases hsigned : spells mem address rsdpSignature = false
  · rw [if_pos hsigned]
    exact ⟨0, rfl⟩
  rw [if_neg hsigned, Prog.bind_run_ok (acpiChecksum_run hpos (by omega) hmapped)]
  by_cases hsum : sumsToZero mem address 20 = true
  swap
  · rw [if_neg hsum]
    exact ⟨0, rfl⟩
  rw [if_pos hsum, if_neg (by decide), Prog.bind_run_ok (acpiRead8_run (by omega) (by omega))]
  by_cases hrevision : u8At mem (address + 15) ≥ 2
  · have hend := hextended hrevision
    have hlength := u32At_range mem (address + 20)
    rw [if_pos hrevision, Prog.bind_run_ok (acpiRead32_run (by omega) (by omega))]
    split
    · exact ⟨0, rfl⟩
    · rename_i hrange
      rw [Prog.bind_run_ok (addWord_run (by omega) (by omega))]
      split
      · exact ⟨0, rfl⟩
      · rename_i hstop
        rw [Prog.bind_run_ok (acpiChecksum_run hpos (by omega) (by omega))]
        exact ⟨_, rfl⟩
  · rw [if_neg hrevision]
    exact ⟨1, rfl⟩

/-- A candidate that has passed, or 0. -/
theorem rsdpOrZero_run (h : RsdpAt mem address) : ∃ r,
    ((acpiIsRsdp mem address >>= fun valid => pure (if valid = 1 then address else 0)) : Kernel Int) s = .ok (r, s) ∧
      (r = 0 ∨ RsdpAt mem r) := by
  obtain ⟨valid, hvalid⟩ := acpiIsRsdp_run (s := s) h
  rw [Prog.bind_run_ok hvalid]
  by_cases hone : valid = 1
  · rw [if_pos hone]
    exact ⟨address, rfl, .inr h⟩
  · rw [if_neg hone]
    exact ⟨0, rfl, .inl rfl⟩

theorem rsdpOfTag_run (hinfo : 0 < info) (hcursor : 0 ≤ cursor) (hstop : info + cursor + tagSize ≤ 1073741824)
    (hsize : 8 ≤ tagSize) : ∃ r, rsdpOfTag mem info cursor tagType tagSize s = .ok (r, s) ∧ (r = 0 ∨ RsdpAt mem r) := by
  unfold rsdpOfTag
  split
  swap
  · exact ⟨0, rfl, .inl rfl⟩
  rw [Prog.bind_run_ok (addWord_run (by omega) (by omega)), Prog.bind_run_ok (addWord_run (by omega) (by omega))]
  split
  · split
    · rw [Prog.bind_run_ok (acpiRead8_run (by omega) (by omega))]
      by_cases hrevision : u8At mem (info + cursor + 8 + 15) < 2
      · rw [if_pos hrevision]
        exact rsdpOrZero_run ⟨by omega, by omega, fun h => by omega⟩
      · rw [if_neg hrevision]
        exact ⟨0, rfl, .inl rfl⟩
    · exact ⟨0, rfl, .inl rfl⟩
  · split
    · exact rsdpOrZero_run ⟨by omega, by omega, fun _ => by omega⟩
    · exact ⟨0, rfl, .inl rfl⟩

/-- The loop over the tags ends, with an RSDP or 0. -/
theorem findRsdpLoop_run (hinfo : 0 < info) (htotal : info + total ≤ 1073741824) (fuel : Nat) : ∀ {cursor : Int},
    0 ≤ cursor → cursor ≤ total + 8 → total - cursor < fuel → 0 < fuel →
      ∃ r, findRsdpLoop mem info total fuel cursor s = .ok (r, s) ∧ (r = 0 ∨ RsdpAt mem r) := by
  induction fuel with
  | zero =>
      intro cursor _ _ _ h
      exact absurd h (Nat.lt_irrefl 0)
  | succ fuel ih =>
      intro cursor hcursor hnear hfuel _
      rw [findRsdpLoop, Prog.bind_run_ok (addWord_run (by omega) (by omega))]
      by_cases hheader : cursor + 8 ≤ total
      swap
      · rw [if_neg hheader]
        exact ⟨0, rfl, .inl rfl⟩
      rw [if_pos hheader, Prog.bind_run_ok (readTag_run (by omega) hcursor (by omega))]
      have hsizes := u32At_range mem (info + (cursor + 4))
      generalize u32At mem (info + (cursor + 4)) = size at hsizes ⊢
      generalize u32At mem (info + cursor) = type
      simp only
      split
      · exact ⟨0, rfl, .inl rfl⟩
      rw [Prog.bind_run_ok (addWord_run (by omega) (by omega))]
      split
      · exact ⟨0, rfl, .inl rfl⟩
      split
      · exact ⟨0, rfl, .inl rfl⟩
      obtain ⟨r, hr, hkind⟩ : ∃ r, rsdpOfTag mem info cursor type size s = .ok (r, s) ∧ (r = 0 ∨ RsdpAt mem r) :=
        rsdpOfTag_run hinfo hcursor (by omega) (by omega)
      rw [Prog.bind_run_ok hr]
      split
      · exact ⟨r, rfl, hkind⟩
      · rw [Prog.bind_run_ok (nextTag_run hcursor (by omega) (by omega))]
        exact ih (by omega) (by omega) (by omega) (by omega)

/-- The information block is there. -/
structure ValidBlock (mem : Memory) (boot : Handoff) : Prop where
  address : physInfoAddr boot ≠ 0
  size : ∀ s, ∃ size, physInfoSize mem boot s = .ok (size, s) ∧ size ≠ 0

/-- The RSDP that is found, or 0. -/
def rsdpOf (mem : Memory) (boot : Handoff) : Int :=
  match acpiFindRsdp mem boot fun _ => 0 with
  | .ok (rsdp, _) => rsdp
  | .error _ => 0

theorem acpiFindRsdp_run (h : ValidBlock mem boot) (s : Slots) :
    acpiFindRsdp mem boot s = .ok (rsdpOf mem boot, s) ∧ (rsdpOf mem boot = 0 ∨ RsdpAt mem (rsdpOf mem boot)) := by
  obtain ⟨size, hrun, hsize⟩ := h.size fun _ => 0
  obtain ⟨⟨hpos, hlarge, hfits⟩, -⟩ := physInfoSize_fits hrun hsize
  obtain ⟨r, hr, hkind⟩ : ∃ r, acpiFindRsdp mem boot (fun _ => 0) = .ok (r, fun _ => 0) ∧ (r = 0 ∨ RsdpAt mem r) := by
    rw [acpiFindRsdp, Prog.bind_run_ok hrun, if_neg (by omega)]
    exact findRsdpLoop_run hpos hfits _ (by omega) (by omega) (by omega) (by omega)
  have hof : rsdpOf mem boot = r := by rw [rsdpOf, hr]
  rw [hof]
  exact ⟨(acpiFindRsdp_reads mem boot).run hr s, hkind⟩

/-! ## The root table -/

/-- The root table an RSDP points to, and whether it is an XSDT. -/
def rootAt (mem : Memory) (rsdp : Int) : Int × Int :=
  if 2 ≤ u8At mem (rsdp + 15) ∧ u64At mem (rsdp + 24) ≠ 0 then (u64At mem (rsdp + 24), 1)
  else (u32At mem (rsdp + 16), 0)

theorem rootOfRsdp_run {rsdp : Int} (h : RsdpAt mem rsdp) : rootOfRsdp mem rsdp s = .ok (rootAt mem rsdp, s) := by
  obtain ⟨hpos, hmapped, hextended⟩ := h
  rw [rootOfRsdp, Prog.bind_run_ok (acpiRead8_run (by omega) (by omega)), rootAt]
  by_cases hrevision : u8At mem (rsdp + 15) ≥ 2
  · have hend := hextended hrevision
    have hread : readXsdtAddress mem rsdp (u8At mem (rsdp + 15)) s = .ok (u64At mem (rsdp + 24), s) := by
      rw [readXsdtAddress, if_pos hrevision, acpiRead64_run (by omega) (by omega)]
    rw [Prog.bind_run_ok hread]
    by_cases hroot : u64At mem (rsdp + 24) = 0
    · rw [if_pos hroot, Prog.bind_run_ok (acpiRead32_run (by omega) (by omega)), if_neg fun h => h.2 hroot]
      rfl
    · rw [if_neg hroot, if_pos ⟨hrevision, hroot⟩]
      rfl
  · have hread : readXsdtAddress mem rsdp (u8At mem (rsdp + 15)) s = .ok (0, s) := by
      rw [readXsdtAddress, if_neg hrevision]
      rfl
    rw [Prog.bind_run_ok hread, if_pos rfl, Prog.bind_run_ok (acpiRead32_run (by omega) (by omega)),
      if_neg fun h => hrevision h.1]
    rfl

/-- An entry of a root table with entries of `size` bytes. -/
def rootEntry (mem : Memory) (root size : Int) (index : Int) : Int :=
  if size = 8 then u64At mem (root + (36 + index * size)) else u32At mem (root + (36 + index * size))

/-- The scan reaches an entry whose header cannot be checked. -/
def ScanFaults (mem : Memory) (root size : Int) (first : Int) (count : Nat) : Prop :=
  ∃ k, first ≤ k ∧ k < first + count ∧ unreachable ≤ rootEntry mem root size k ∧
    ∀ j, first ≤ j → j < k → isMadt mem (rootEntry mem root size j) = false

theorem readRootEntry_run {size index : Int} (hsize : size = 8 ∨ size = 4) (hindex : 0 ≤ index) (hroot : 0 ≤ root)
    (hstop : root + 36 + (index + 1) * size ≤ 1073741824) :
    readRootEntry mem root size index s = .ok (rootEntry mem root size index, s) := by
  have hoffset : 0 ≤ index * size ∧ index * size < 1073741824 := by
    rcases hsize with rfl | rfl <;> omega
  rw [readRootEntry, Prog.bind_run_ok (mulWord_run (by omega) (by omega)),
    Prog.bind_run_ok (addWord_run (by omega) (by omega)), rootEntry]
  rcases hsize with rfl | rfl
  · rw [if_pos rfl, if_pos rfl]
    exact acpiRead64_run (by omega) (by omega)
  · rw [if_neg (by decide), if_neg (by decide)]
    exact acpiRead32_run (by omega) (by omega)

/-- The loop over the entries: it stops at the MADT or at an address it cannot check. -/
theorem findMadtLoop_run {size : Int} (hsize : size = 8 ∨ size = 4) (hroot : 0 ≤ root) (count : Nat) :
    ∀ {index : Int}, 0 ≤ index → root + 36 + (index + count) * size ≤ 1073741824 →
      (ScanFaults mem root size index count ∧ findMadtLoop mem root size count index s = .error .arithmetic) ∨
      (¬ ScanFaults mem root size index count ∧
        ∃ r, findMadtLoop mem root size count index s = .ok (r, s) ∧ (r = 0 ∨ isMadt mem r = true)) := by
  induction count with
  | zero =>
      intro index _ _
      refine .inr ⟨?_, 0, rfl, .inl rfl⟩
      rintro ⟨k, h₁, h₂, -⟩
      omega
  | succ count ih =>
      intro index hindex hstop
      have hfirst : root + 36 + (index + 1) * size ≤ 1073741824 := by
        rcases hsize with rfl | rfl <;> push_cast at hstop <;> omega
      have hrest : root + 36 + (index + 1 + count) * size ≤ 1073741824 := by
        rcases hsize with rfl | rfl <;> push_cast at hstop <;> omega
      rw [findMadtLoop, Prog.bind_run_ok (readRootEntry_run hsize hindex hroot hfirst)]
      by_cases hreach : unreachable ≤ rootEntry mem root size index
      · refine .inl ⟨⟨index, by omega, by omega, hreach, fun j h₁ h₂ => by omega⟩, ?_⟩
        rw [Prog.bind_run, isMadtEntry_fault hreach]
      have hnot : rootEntry mem root size index < unreachable := by omega
      rw [Prog.bind_run_ok (isMadtEntry_run hnot)]
      by_cases hmadt : isMadt mem (rootEntry mem root size index) = true
      · rw [if_pos hmadt]
        refine .inr ⟨?_, _, rfl, .inr hmadt⟩
        rintro ⟨k, h₁, h₂, hk, hbefore⟩
        by_cases he : k = index
        · rw [he] at hk
          exact hreach hk
        · have hno := hbefore index (Int.le_refl _) (by omega)
          rw [hmadt] at hno
          cases hno
      · rw [if_neg hmadt, Prog.bind_run_ok (addWord_run (by omega) (by rcases hsize with rfl | rfl <;> omega))]
        have hiff : ScanFaults mem root size index (count + 1) ↔ ScanFaults mem root size (index + 1) count := by
          constructor
          · rintro ⟨k, h₁, h₂, hk, hbefore⟩
            have hne : k ≠ index := by
              rintro rfl
              exact hreach hk
            push_cast at h₂
            exact ⟨k, by omega, by omega, hk, fun j h₃ h₄ => hbefore j (by omega) h₄⟩
          · rintro ⟨k, h₁, h₂, hk, hbefore⟩
            refine ⟨k, by omega, by push_cast; omega, hk, fun j h₃ h₄ => ?_⟩
            by_cases he : j = index
            · rw [he]
              simpa using hmadt
            · exact hbefore j (by omega) h₄
        rw [hiff]
        exact ih (by omega) hrest

/-! ## Discovery up to the MADT -/

/-- A root table with entries that are scanned. -/
structure ScannedRoot (mem : Memory) (root size : Int) : Prop where
  length : 36 ≤ tableLength mem root
  checksum : sumsToZero mem root (tableLength mem root) = true
  whole : (tableLength mem root - 36) % size = 0
  few : (tableLength mem root - 36) / size ≤ 4096

theorem entrySize_cases (xsdt : Int) : entrySize xsdt = 8 ∨ entrySize xsdt = 4 := by
  unfold entrySize
  split
  · exact .inl rfl
  · exact .inr rfl

/-- The scan of a root table stops at an address it cannot check. -/
def RootFaults (mem : Memory) (root xsdt : Int) : Prop :=
  ScannedRoot mem root (entrySize xsdt) ∧
    ScanFaults mem root (entrySize xsdt) 0 ((tableLength mem root - 36) / entrySize xsdt).toNat

theorem acpiFindMadtInRoot_run (xsdt : Int) (hroot : root < unreachable) (s : Slots) :
    (RootFaults mem root xsdt ∧ acpiFindMadtInRoot mem root xsdt s = .error .arithmetic) ∨
    (¬ RootFaults mem root xsdt ∧ ∃ r s', acpiFindMadtInRoot mem root xsdt s = .ok (r, s') ∧
      (r = 0 ∨ isMadt mem r = true) ∧ ∀ k, k ≠ 39 → s' k = s k) := by
  have hsize := entrySize_cases xsdt
  -- a root table that is not scanned gives 0
  have zero : ∀ {m : Kernel Int}, ¬ ScannedRoot mem root (entrySize xsdt) → m s = .ok (0, s) →
      (RootFaults mem root xsdt ∧ m s = .error .arithmetic) ∨ (¬ RootFaults mem root xsdt ∧ ∃ r s', m s = .ok (r, s') ∧
        (r = 0 ∨ isMadt mem r = true) ∧ ∀ k, k ≠ 39 → s' k = s k) := by
    intro m hno hm
    exact .inr ⟨fun h => hno h.1, 0, s, hm, .inl rfl, fun _ _ => rfl⟩
  unfold acpiFindMadtInRoot
  rw [Prog.bind_run_ok (acpiTableLength_run hroot)]
  by_cases hlength : tableLength mem root < 36
  · rw [if_pos hlength]
    exact zero (fun h => absurd h.length (by omega)) rfl
  obtain ⟨hlow, -, hlong, hstop⟩ := tableLength_pos (by omega : tableLength mem root ≠ 0)
  rw [if_neg hlength, Prog.bind_run_ok (acpiChecksum_run (by omega) (by omega) hstop)]
  by_cases hsum : sumsToZero mem root (tableLength mem root) = true
  swap
  · rw [if_neg hsum, if_pos (by decide)]
    exact zero (fun h => hsum h.checksum) rfl
  have hsub : subWord (tableLength mem root) 36 s = .ok (tableLength mem root - 36, s) :=
    word_run ⟨by omega, by omega⟩
  rw [if_pos hsum, if_neg (by decide), Prog.bind_run_ok hsub]
  by_cases hwhole : (tableLength mem root - 36) % entrySize xsdt = 0
  swap
  · rw [if_pos hwhole]
    exact zero (fun h => hwhole h.whole) rfl
  by_cases hfew : (tableLength mem root - 36) / entrySize xsdt > 4096
  · rw [if_neg (not_not.mpr hwhole), if_pos hfew]
    exact zero (fun h => absurd h.few (by omega)) rfl
  have hscanned : ScannedRoot mem root (entrySize xsdt) := ⟨by omega, hsum, hwhole, by omega⟩
  have hset : stateSet 39 ((tableLength mem root - 36) / entrySize xsdt) s =
      .ok ((), Function.update s 39 ((tableLength mem root - 36) / entrySize xsdt)) := rfl
  rw [if_neg (not_not.mpr hwhole), if_neg hfew, Prog.bind_run_ok hset]
  have hfit : root + 36 + (0 + (((tableLength mem root - 36) / entrySize xsdt).toNat : Int)) * entrySize xsdt ≤
      1073741824 := by
    rcases hsize with h | h <;> rw [h] at hwhole ⊢ <;> omega
  rcases findMadtLoop_run hsize (by omega) _ (Int.le_refl 0) hfit with ⟨hfaults, hrun⟩ | ⟨hno, r, hrun, hr⟩
  · exact .inl ⟨⟨hscanned, hfaults⟩, hrun⟩
  · exact .inr ⟨fun h => hno h.2, r, _, hrun, hr, fun k hk => Function.update_of_ne hk _ _⟩

/-- The signature of a root table. -/
def rootSpells (mem : Memory) (root xsdt : Int) : Bool :=
  spells mem root (if xsdt = 1 then [88, 83, 68, 84] else [82, 83, 68, 84])

theorem rootSigned_run {xsdt : Int} (hroot : 0 ≤ root) (hstop : root + 4 ≤ 1073741824) :
    rootSigned mem root xsdt s = .ok (if rootSpells mem root xsdt = true then 1 else 0, s) := by
  unfold rootSigned rootSpells
  by_cases hxsdt : xsdt = 1
  · rw [if_pos hxsdt, if_pos hxsdt]
    exact acpiSignatureIs_run _ rfl hroot hstop
  · rw [if_neg hxsdt, if_neg hxsdt]
    exact acpiSignatureIs_run _ rfl hroot hstop

/-- Discovery comes to an address it cannot check: that of the root table, or that of an entry before the MADT. -/
def Overflows (mem : Memory) (rsdp : Int) : Prop :=
  unreachable ≤ (rootAt mem rsdp).1 ∨
    (4096 ≤ (rootAt mem rsdp).1 ∧ rootSpells mem (rootAt mem rsdp).1 (rootAt mem rsdp).2 = true ∧
      RootFaults mem (rootAt mem rsdp).1 (rootAt mem rsdp).2)

/-- The slots that the search for the MADT writes. -/
def searchSlots : List Int := [30, 31, 39, 57]

/-- **The search for the MADT** overflows, or finds one, or none. -/
theorem locateMadt_run (h : ValidBlock mem boot) (s : Slots) :
    ((rsdpOf mem boot ≠ 0 ∧ Overflows mem (rsdpOf mem boot)) ∧ locateMadt mem boot s = .error .arithmetic) ∨
    (¬(rsdpOf mem boot ≠ 0 ∧ Overflows mem (rsdpOf mem boot)) ∧
      ∃ madt s', locateMadt mem boot s = .ok (madt, s') ∧ (madt = 0 ∨ isMadt mem madt = true) ∧
        ∀ k ∉ searchSlots, s' k = s k) := by
  obtain ⟨hfind, hat⟩ := acpiFindRsdp_run h s
  generalize rsdpOf mem boot = rsdp at *
  rw [locateMadt, Prog.bind_run_ok hfind]
  by_cases hzero : rsdp = 0
  · rw [if_pos hzero]
    exact .inr ⟨fun h => h.1 hzero, 0, s, rfl, .inl rfl, fun _ _ => rfl⟩
  have hrsdp := hat.resolve_left hzero
  have hset : stateSet 30 rsdp s = .ok ((), Function.update s 30 rsdp) := rfl
  rw [if_neg hzero, Prog.bind_run_ok hset]
  generalize hs₁ : Function.update s 30 rsdp = s₁
  have hset' : stateSet 57 (u8At mem (rsdp + 15)) s₁ = .ok ((), Function.update s₁ 57 (u8At mem (rsdp + 15))) := rfl
  rw [Prog.bind_run_ok (acpiRead8_run (by have := hrsdp.pos; omega) (by have := hrsdp.mapped; omega)),
    Prog.bind_run_ok hset', Prog.bind_run_ok (rootOfRsdp_run hrsdp)]
  generalize hs₂ : Function.update s₁ 57 (u8At mem (rsdp + 15)) = s₂
  have hkeep₂ : ∀ k ∉ searchSlots, s₂ k = s k := by
    intro k hk
    simp only [searchSlots, List.mem_cons, List.not_mem_nil, or_false, not_or] at hk
    rw [← hs₂, Function.update_of_ne hk.2.2.2, ← hs₁, Function.update_of_ne hk.1]
  unfold Overflows
  generalize rootAt mem rsdp = root
  obtain ⟨root, xsdt⟩ := root
  simp only
  by_cases hlow : root < 4096
  · rw [if_pos hlow]
    refine .inr ⟨?_, 0, s₂, rfl, .inl rfl, hkeep₂⟩
    rintro ⟨-, hun | ⟨hroot, -⟩⟩
    · unfold unreachable at hun
      omega
    · omega
  rw [if_neg hlow]
  by_cases hreach : unreachable ≤ root
  · refine .inl ⟨⟨hzero, .inl hreach⟩, ?_⟩
    have hfault : addWord root 36 s₂ = .error .arithmetic := by
      apply word_fault
      unfold unreachable at hreach
      unfold InWord
      omega
    rw [Prog.bind_run, hfault]
  have hroot : root < unreachable := by omega
  have hword := hroot
  unfold unreachable at hword
  rw [Prog.bind_run_ok (addWord_run (by omega) (by omega))]
  by_cases hheader : root + 36 > 1073741824
  · rw [if_pos hheader]
    refine .inr ⟨?_, 0, s₂, rfl, .inl rfl, hkeep₂⟩
    rintro ⟨-, hun | ⟨-, -, hfaults⟩⟩
    · exact hreach hun
    · have hlength := hfaults.1.length
      obtain ⟨-, -, -, hstop⟩ := tableLength_pos (by omega : tableLength mem root ≠ 0)
      omega
  rw [if_neg hheader, Prog.bind_run_ok (rootSigned_run (by omega) (by omega))]
  by_cases hsigned : rootSpells mem root xsdt = true
  swap
  · rw [if_neg hsigned, if_pos (by decide)]
    refine .inr ⟨?_, 0, s₂, rfl, .inl rfl, hkeep₂⟩
    rintro ⟨-, hun | ⟨-, hyes, -⟩⟩
    · exact hreach hun
    · exact hsigned hyes
  have hset₃ : stateSet 31 root s₂ = .ok ((), Function.update s₂ 31 root) := rfl
  rw [if_pos hsigned, if_neg (by decide), Prog.bind_run_ok hset₃]
  rcases acpiFindMadtInRoot_run xsdt hroot (Function.update s₂ 31 root) with
    ⟨hfaults, hrun⟩ | ⟨hno, madt, s', hrun, hkind, hkeep⟩
  · exact .inl ⟨⟨hzero, .inr ⟨by omega, hsigned, hfaults⟩⟩, hrun⟩
  · refine .inr ⟨?_, madt, s', hrun, hkind, fun k hk => ?_⟩
    · rintro ⟨-, hun | ⟨-, -, hfaults⟩⟩
      · exact hreach hun
      · exact hno hfaults
    · have hslots := hk
      simp only [searchSlots, List.mem_cons, List.not_mem_nil, or_false, not_or] at hslots
      rw [hkeep k hslots.2.2.1, Function.update_of_ne hslots.2.1, hkeep₂ k hk]

end Vnt.Os
