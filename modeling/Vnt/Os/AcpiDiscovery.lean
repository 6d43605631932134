import Vnt.Os.AcpiLocate
import Vnt.Os.AcpiMadt

/-!
# `Os.AcpiDiscovery` — what discovery does

`acpi_discover` as a whole: it stops at a sum that overflows, or returns 0 without a MADT, or returns 0 at a malformed
entry of the MADT, or returns 1 with the inventory of all its entries. Two things follow: it comes to an end for all
memories but those where a sum overflows, and what it publishes is all or nothing but for a malformed entry, because the
address of the MADT and what stands before that entry are published already.
-/

namespace Vnt.Os

open Lib

variable {mem : Memory} {boot : Handoff} {s s' : Slots}

/-! ## The beginning -/

theorem clearLoop_run (count : Nat) : ∀ {i : Int} {s : Slots}, 0 ≤ i →
    ∃ s', clearLoop count i s = .ok ((), s') ∧ ∀ k, k < 40 → s' k = s k := by
  induction count with
  | zero => exact fun _ => ⟨_, rfl, fun _ _ => rfl⟩
  | succ count ih =>
      intro i s hi
      rw [clearLoop, Prog.bind_run_ok (stateSet_run _ _), Prog.bind_run_ok (stateSet_run _ _),
        Prog.bind_run_ok (stateSet_run _ _), Prog.bind_run_ok (stateSet_run _ _)]
      obtain ⟨s', hrun, hkeep⟩ := ih (by omega : 0 ≤ i + 1)
      refine ⟨s', hrun, fun k hk => ?_⟩
      rw [hkeep k hk, Function.update_of_ne (by omega), Function.update_of_ne (by omega),
        Function.update_of_ne (by omega), Function.update_of_ne (by omega)]

theorem clearInventory_run (s : Slots) :
    ∃ s', clearInventory s = .ok ((), s') ∧ ∀ k, 30 ≤ k → k < 40 → s' k = 0 := by
  rw [clearInventory, Prog.bind_run_ok (stateSet_run _ _), Prog.bind_run_ok (stateSet_run _ _),
    Prog.bind_run_ok (stateSet_run _ _), Prog.bind_run_ok (stateSet_run _ _), Prog.bind_run_ok (stateSet_run _ _),
    Prog.bind_run_ok (stateSet_run _ _), Prog.bind_run_ok (stateSet_run _ _), Prog.bind_run_ok (stateSet_run _ _),
    Prog.bind_run_ok (stateSet_run _ _), Prog.bind_run_ok (stateSet_run _ _)]
  obtain ⟨s', hrun, hkeep⟩ := clearLoop_run 16 (Int.le_refl 0)
  refine ⟨s', hrun, fun k h₁ h₂ => ?_⟩
  rw [hkeep k h₂]
  have hk : k = 30 ∨ k = 31 ∨ k = 32 ∨ k = 33 ∨ k = 34 ∨ k = 35 ∨ k = 36 ∨ k = 37 ∨ k = 38 ∨ k = 39 := by omega
  rcases hk with rfl | rfl | rfl | rfl | rfl | rfl | rfl | rfl | rfl | rfl <;> rfl

/-! ## The MADT -/

theorem isMadt_length {madt : Int} (h : isMadt mem madt = true) : 4096 ≤ madt ∧ 44 ≤ tableLength mem madt ∧
    madt + tableLength mem madt ≤ 1073741824 := by
  simp only [isMadt, Bool.and_eq_true, decide_eq_true_eq] at h
  obtain ⟨⟨⟨⟨hlow, -⟩, -⟩, hlength⟩, -⟩ := h
  obtain ⟨-, -, -, hstop⟩ := tableLength_pos (by omega : tableLength mem madt ≠ 0)
  exact ⟨hlow, hlength, hstop⟩

/-- From a cleared state a MADT is published whole, or up to a malformed entry. -/
theorem publishMadt_run {madt : Int} (h : isMadt mem madt = true) (hclear : ∀ k, 32 ≤ k → k < 39 → s k = 0) :
    (entriesOf mem madt = none ∧ ∃ s', publishMadt mem madt s = .ok (0, s') ∧ s' 32 = madt) ∨
    ∃ entries s', entriesOf mem madt = some entries ∧ publishMadt mem madt s = .ok (1, s') ∧ s' 32 = madt ∧
      Inventory (u32At mem (madt + 36)) entries s' := by
  obtain ⟨hlow, hlength, hstop⟩ := isMadt_length h
  have hreach : madt < unreachable := by
    unfold unreachable
    omega
  rw [publishMadt, Prog.bind_run_ok (stateSet_run _ _), Prog.bind_run_ok (acpiRead32_run (by omega) (by omega)),
    Prog.bind_run_ok (stateSet_run _ _), Prog.bind_run_ok (acpiRead32_run (by omega) (by omega)),
    Prog.bind_run_ok (stateSet_run _ _), Prog.bind_run_ok (acpiTableLength_run hreach)]
  have hfirst : Inventory (u32At mem (madt + 36)) [] (Function.update (Function.update (Function.update s 32 madt) 33
      (u32At mem (madt + 36))) 56 (u32At mem (madt + 40))) := by
    refine ⟨hclear 36 (by omega) (by omega), nofun, hclear 37 (by omega) (by omega), ?_, hclear 38 (by omega) (by omega),
      nofun, rfl⟩
    exact Prod.ext (hclear 34 (by omega) (by omega)) (hclear 35 (by omega) (by omega))
  rcases madtLoop_run (by omega : 0 ≤ madt) hstop ((tableLength mem madt).toNat + 1) (by omega : (0 : Int) ≤ 44) (by omega)
    (by omega) (by simp) (by omega) hfirst with
    ⟨hnone, s', hrun, hkeep⟩ | ⟨entries, s', hsome, hrun, hkeep, hall⟩
  · exact .inl ⟨hnone, s', hrun, hkeep⟩
  · exact .inr ⟨entries, s', hsome, hrun, hkeep, hall⟩

/-! ## Discovery -/

/-- The MADT that discovery finds, or 0. -/
def madtOf (mem : Memory) (boot : Handoff) : Int :=
  match locateMadt mem boot fun _ => 0 with
  | .ok (madt, _) => madt
  | .error _ => 0

theorem madtOf_eq {madt : Int} (h : locateMadt mem boot s = .ok (madt, s')) : madtOf mem boot = madt := by
  obtain ⟨t', ht⟩ := (locateMadt_blind mem boot).run h fun _ => 0
  rw [madtOf, ht]

/-- Without an information block there is no RSDP. -/
theorem acpiFindRsdp_block {r : Int} (h : acpiFindRsdp mem boot s = .ok (r, s')) : r = 0 ∨ ValidBlock mem boot := by
  rw [acpiFindRsdp, Prog.bind_run] at h
  cases hsize : physInfoSize mem boot s with
  | error e =>
      rw [hsize] at h
      cases h
  | ok p =>
      obtain ⟨size, s₁⟩ := p
      rw [hsize] at h
      by_cases hnone : physInfoAddr boot = 0 ∨ size < 16
      · change (if physInfoAddr boot = 0 ∨ size < 16 then pure 0 else _ : Kernel Int) s₁ = _ at h
        rw [if_pos hnone] at h
        cases h
        exact .inl rfl
      · rw [not_or] at hnone
        exact .inr ⟨hnone.1, fun t => ⟨size, (physInfoSize_reads mem boot).run hsize t, by omega⟩⟩

/-- A search that comes to an end has found a MADT or none. -/
theorem locateMadt_ok {madt : Int} (h : locateMadt mem boot s = .ok (madt, s')) :
    (madt = 0 ∨ isMadt mem madt = true) ∧ ∀ k ∉ searchSlots, s' k = s k := by
  have hrun := h
  rw [locateMadt, Prog.bind_run] at hrun
  cases hfind : acpiFindRsdp mem boot s with
  | error e =>
      rw [hfind] at hrun
      cases hrun
  | ok p =>
      obtain ⟨rsdp, s₁⟩ := p
      rcases acpiFindRsdp_block hfind with rfl | hvalid
      · have hsame := (acpiFindRsdp_reads mem boot).run hfind s
        rw [hsame] at hrun
        change (if (0 : Int) = 0 then pure 0 else _ : Kernel Int) s = _ at hrun
        rw [if_pos rfl] at hrun
        cases hrun
        exact ⟨.inl rfl, fun _ _ => rfl⟩
      · rcases locateMadt_run hvalid s with ⟨-, hfault⟩ | ⟨-, madt', s'', hok, hkind, hkeep⟩
        · rw [h] at hfault
          cases hfault
        · rw [h] at hok
          cases hok
          exact ⟨hkind, hkeep⟩

/-- **Discovery from a search that comes to an end.** -/
theorem acpiDiscover_ok {s₀ s₁ : Slots} {madt : Int} (hclear : clearInventory s = .ok ((), s₀))
    (hzero : ∀ k, 30 ≤ k → k < 40 → s₀ k = 0) (hlocate : locateMadt mem boot s₀ = .ok (madt, s₁)) :
    (madt = 0 ∧ acpiDiscover mem boot s = .ok (0, s₁) ∧ ∀ k, 32 ≤ k → k < 39 → s₁ k = 0) ∨
    (madt ≠ 0 ∧ entriesOf mem madt = none ∧ ∃ s', acpiDiscover mem boot s = .ok (0, s') ∧ s' 32 = madt) ∨
    (madt ≠ 0 ∧ isMadt mem madt = true ∧ ∃ entries s', entriesOf mem madt = some entries ∧
      acpiDiscover mem boot s = .ok (1, s') ∧ s' 32 = madt ∧ Inventory (u32At mem (madt + 36)) entries s') := by
  obtain ⟨hkind, hkeep⟩ := locateMadt_ok hlocate
  have hcleared : ∀ k, 32 ≤ k → k < 39 → s₁ k = 0 := by
    intro k h₁ h₂
    rw [hkeep k (by simp [searchSlots]; omega)]
    exact hzero k (by omega) (by omega)
  rw [acpiDiscover, Prog.bind_run_ok hclear, Prog.bind_run_ok hlocate]
  by_cases hnone : madt = 0
  · rw [if_pos hnone]
    exact .inl ⟨hnone, rfl, hcleared⟩
  rw [if_neg hnone]
  have hmadt := hkind.resolve_left hnone
  rcases publishMadt_run hmadt hcleared with ⟨hbad, s', hrun, hslot⟩ | ⟨entries, s', hgood, hrun, hslot, hall⟩
  · exact .inr (.inl ⟨hnone, hbad, s', hrun, hslot⟩)
  · exact .inr (.inr ⟨hnone, hmadt, entries, s', hgood, hrun, hslot, hall⟩)

/-- **When discovery comes to an end.** With a valid information block `acpi_discover` returns exactly when no sum
    overflows: it reads nothing outside the first GiB, and no loop of it is endless. -/
theorem acpiDiscover_returns_iff (h : ValidBlock mem boot) (s : Slots) :
    (∃ r s', acpiDiscover mem boot s = .ok (r, s')) ↔ ¬(rsdpOf mem boot ≠ 0 ∧ Overflows mem (rsdpOf mem boot)) := by
  obtain ⟨s₀, hclear, hzero⟩ := clearInventory_run s
  rcases locateMadt_run h s₀ with ⟨hover, hfault⟩ | ⟨hno, madt, s₁, hlocate, -, -⟩
  · refine ⟨?_, fun hno => absurd hover hno⟩
    rintro ⟨r, s', hrun⟩
    rw [acpiDiscover, Prog.bind_run_ok hclear, Prog.bind_run, hfault] at hrun
    cases hrun
  · refine ⟨fun _ => hno, fun _ => ?_⟩
    rcases acpiDiscover_ok hclear hzero hlocate with ⟨-, hrun, -⟩ | ⟨-, -, s', hrun, -⟩ | ⟨-, -, _, s', -, hrun, -⟩
    · exact ⟨0, s₁, hrun⟩
    · exact ⟨0, s', hrun⟩
    · exact ⟨1, s', hrun⟩

def Fault.of {α : Type} : Except Fault α → Option Fault
  | .ok _ => none
  | .error e => some e

/-- An RSDP of revision 2 whose XSDT is said to be at the largest number. -/
def highXsdt : Memory := memoryOf [(4096, [64, 0, 0, 0, 0, 0, 0, 0,
  15, 0, 0, 0, 44, 0, 0, 0, 82, 83, 68, 32, 80, 84, 82, 32, 223, 0, 0, 0, 0, 0, 0, 2, 0, 0, 0, 0, 36, 0, 0, 0,
  255, 255, 255, 255, 255, 255, 255, 127, 100, 0, 0, 0, 0, 0, 0, 0, 0, 0, 0, 0, 8, 0, 0, 0])]

theorem highXsdt_valid : ValidBlock highXsdt bootAt4096 := ⟨by decide, fun _ => ⟨64, rfl, by decide⟩⟩

theorem highXsdt_traps : ¬ ∀ (mem : Memory) (boot : Handoff) (s : Slots), ValidBlock mem boot →
    ∃ r s', acpiDiscover mem boot s = .ok (r, s') := by
  intro h
  obtain ⟨r, s', hrun⟩ := h highXsdt bootAt4096 (fun _ => 0) highXsdt_valid
  have hfault : Fault.of (acpiDiscover highXsdt bootAt4096 fun _ => 0) = some .arithmetic := by decide +kernel
  rw [hrun] at hfault
  cases hfault

/-- An information block without an RSDP. -/
def noRsdp : Memory := memoryOf [(4096, [16, 0, 0, 0, 0, 0, 0, 0, 0, 0, 0, 0, 8, 0, 0, 0])]

theorem noRsdp_returns : ∃ r s', acpiDiscover noRsdp bootAt4096 (fun _ => 7) = .ok (r, s') :=
  (acpiDiscover_returns_iff ⟨by decide, fun _ => ⟨16, rfl, by decide⟩⟩ fun _ => 7).mpr fun h => h.1 (by decide +kernel)

/-! ## What is published -/

/-- All that the rest of the kernel sees is 0. -/
structure NothingPublished (s : Slots) : Prop where
  madtAddress : acpiMadtAddress s = .ok (0, s)
  lapicAddress : acpiLapicAddress s = .ok (0, s)
  ioapicAddress : acpiIoapicAddress s = .ok (0, s)
  cpuCount : acpiCpuCount s = .ok (0, s)
  ioapicCount : acpiIoapicCount s = .ok (0, s)
  isoCount : acpiIsoCount s = .ok (0, s)

/-- What the rest of the kernel sees is what one pass over the entries finds: all processors and controllers counted,
    the overrides counted as far as there are slots, and the first sixteen processors and overrides. -/
structure PassPublished (mem : Memory) (madt : Int) (entries : List MadtEntry) (s : Slots) : Prop where
  madtAddress : acpiMadtAddress s = .ok (madt, s)
  lapicAddress : acpiLapicAddress s = .ok (Os.lapicAddress (u32At mem (madt + 36)) entries, s)
  ioapicAddress : acpiIoapicAddress s = .ok (((ioapics entries).head?.getD (0, 0)).1, s)
  ioapicGsiBase : acpiIoapicGsiBase s = .ok (((ioapics entries).head?.getD (0, 0)).2, s)
  cpuCount : acpiCpuCount s = .ok (((cpus entries).length : Int), s)
  ioapicCount : acpiIoapicCount s = .ok (((ioapics entries).length : Int), s)
  isoCount : acpiIsoCount s = .ok (((min (overrides entries).length 16 : Nat) : Int), s)
  cpuApicId : ∀ i : Nat, i < 16 → ∀ id, (cpus entries)[i]? = some id → acpiCpuApicId i s = .ok (id, s)
  iso : ∀ i : Nat, i < 16 → ∀ source gsi flags, (overrides entries)[i]? = some (source, gsi, flags) →
    acpiIsoSource i s = .ok (source, s) ∧ acpiIsoGsi i s = .ok (gsi, s) ∧ acpiIsoFlags i s = .ok (flags, s)

/-- An index that the count covers is looked up. -/
theorem slotOf_run {count slot : Int} {i n : Nat} (hcount : s count = n) (hi : i < n) (h16 : i < 16) :
    slotOf count i slot s = .ok (s slot, s) := by
  rw [slotOf, if_neg (by omega), Prog.bind_run_ok (stateGet_run count), hcount, if_neg (by omega), stateGet_run]

theorem Inventory.published {madt : Int} {entries : List MadtEntry}
    (h : Inventory (u32At mem (madt + 36)) entries s) (hmadt : s 32 = madt) : PassPublished mem madt entries s := by
  have get : ∀ {index value : Int}, s index = value → stateGet index s = .ok (value, s) := by
    rintro index value rfl
    exact stateGet_run index
  have hfirst := h.ioapicFirst
  refine ⟨get hmadt, get h.lapic, get (by rw [← hfirst]), get (by rw [← hfirst]), get h.cpuCount, get h.ioapicCount,
    get h.overrideCount, fun i hi id hid => ?_, fun i hi source gsi flags hget => ?_⟩
  · have hlt := (List.getElem?_eq_some_iff.mp hid).1
    rw [acpiCpuApicId, slotOf_run h.cpuCount hlt hi, h.cpuIds i hi id hid]
  · have hlt := (List.getElem?_eq_some_iff.mp hget).1
    obtain ⟨hsource, hgsi, hflags⟩ := h.overrideSlots i hi source gsi flags hget
    have hmin : i < min (overrides entries).length 16 := by omega
    rw [acpiIsoSource, acpiIsoGsi, acpiIsoFlags, slotOf_run h.overrideCount hmin hi, slotOf_run h.overrideCount hmin hi,
      slotOf_run h.overrideCount hmin hi, hsource, hgsi, hflags]
    exact ⟨rfl, rfl, rfl⟩

/-- Discovery publishes all or nothing. -/
def AllOrNothing (mem : Memory) (boot : Handoff) (s : Slots) : Prop :=
  ∀ r s', acpiDiscover mem boot s = .ok (r, s') → (r = 0 → NothingPublished s') ∧
    (r = 1 → ∃ madt entries, isMadt mem madt = true ∧ entriesOf mem madt = some entries ∧
      PassPublished mem madt entries s')

/-- Discovery finds a MADT with a malformed entry. -/
def MalformedMadt (mem : Memory) (boot : Handoff) : Prop :=
  madtOf mem boot ≠ 0 ∧ entriesOf mem (madtOf mem boot) = none

/-- **When discovery is all or nothing.** What `acpi_discover` publishes is all of the MADT or nothing exactly when the
    MADT it finds, if any, has no malformed entry; it returns 0 or 1. -/
theorem acpiDiscover_allOrNothing_iff (mem : Memory) (boot : Handoff) (s : Slots) :
    (AllOrNothing mem boot s ↔ ¬ MalformedMadt mem boot) ∧
    ∀ r s', acpiDiscover mem boot s = .ok (r, s') → (r = 0 ∨ r = 1) ∧
      (r = 1 → ∃ madt entries, isMadt mem madt = true ∧ entriesOf mem madt = some entries ∧
        PassPublished mem madt entries s') := by
  obtain ⟨s₀, hclear, hzero⟩ := clearInventory_run s
  cases hlocate : locateMadt mem boot s₀ with
  | error e =>
      have hfault : ∀ r s', acpiDiscover mem boot s ≠ .ok (r, s') := by
        intro r s' hrun
        rw [acpiDiscover, Prog.bind_run_ok hclear, Prog.bind_run, hlocate] at hrun
        cases hrun
      have hnone : madtOf mem boot = 0 := by
        rw [madtOf]
        cases hrun : locateMadt mem boot fun _ => 0 with
        | error e => rfl
        | ok p =>
            obtain ⟨t', ht⟩ := (locateMadt_blind mem boot).run hrun s₀
            rw [hlocate] at ht
            cases ht
      exact ⟨⟨fun _ h => h.1 hnone, fun _ r s' hrun => absurd hrun (hfault r s')⟩,
        fun r s' hrun => absurd hrun (hfault r s')⟩
  | ok p =>
      obtain ⟨madt, s₁⟩ := p
      have hof := madtOf_eq hlocate
      unfold AllOrNothing MalformedMadt
      rw [hof]
      rcases acpiDiscover_ok hclear hzero hlocate with
        ⟨hnone, hrun, hempty⟩ | ⟨hsome, hbad, s', hrun, hslot⟩ | ⟨hsome, hmadt, entries, s', hgood, hrun, hslot, hall⟩
      · rw [hrun]
        have get : ∀ index, 32 ≤ index → index < 39 → stateGet index s₁ = .ok (0, s₁) := by
          intro index h₁ h₂
          rw [stateGet_run, hempty index h₁ h₂]
        refine ⟨⟨fun _ h => h.1 hnone, fun _ r s' hr => ?_⟩, fun r s' hr => ?_⟩
        · cases hr
          refine ⟨fun _ => ?_, fun hone => absurd hone (by decide)⟩
          exact ⟨get 32 (by decide) (by decide), get 33 (by decide) (by decide), get 34 (by decide) (by decide),
            get 36 (by decide) (by decide), get 37 (by decide) (by decide), get 38 (by decide) (by decide)⟩
        · cases hr
          exact ⟨.inl rfl, fun hone => absurd hone (by decide)⟩
      · rw [hrun]
        refine ⟨⟨fun h => ?_, fun h => absurd ⟨hsome, hbad⟩ h⟩, fun r s'' hr => ?_⟩
        · have hpublished := ((h 0 s' rfl).1 rfl).madtAddress
          rw [acpiMadtAddress, stateGet_run, hslot] at hpublished
          cases hpublished
          exact absurd rfl hsome
        · cases hr
          exact ⟨.inl rfl, fun hone => absurd hone (by decide)⟩
      · rw [hrun]
        have hpass := hall.published hslot
        refine ⟨⟨fun _ h => ?_, fun _ r s'' hr => ?_⟩, fun r s'' hr => ?_⟩
        · rw [hgood] at h
          exact absurd h.2 nofun
        · cases hr
          exact ⟨fun h0 => absurd h0 (by decide), fun _ => ⟨madt, entries, hmadt, hgood, hpass⟩⟩
        · cases hr
          exact ⟨.inr rfl, fun _ => ⟨madt, entries, hmadt, hgood, hpass⟩⟩

/-- A MADT at 12288 whose only entry is one byte long. -/
def shortEntry : Memory := memoryOf [
  (4096, [48, 0, 0, 0, 0, 0, 0, 0, 14, 0, 0, 0, 28, 0, 0, 0, 82, 83, 68, 32, 80, 84, 82, 32, 193, 0, 0, 0, 0, 0, 0, 0,
    0, 32, 0, 0, 0, 0, 0, 0, 0, 0, 0, 0, 8, 0, 0, 0]),
  (8192, [82, 83, 68, 84, 40, 0, 0, 0, 0, 107, 0, 0, 0, 0, 0, 0, 0, 0, 0, 0, 0, 0, 0, 0, 0, 0, 0, 0, 0, 0, 0, 0, 0, 0,
    0, 0, 0, 48, 0, 0]),
  (12288, [65, 80, 73, 67, 46, 0, 0, 0, 0, 214, 0, 0, 0, 0, 0, 0, 0, 0, 0, 0, 0, 0, 0, 0, 0, 0, 0, 0, 0, 0, 0, 0, 0, 0,
    0, 0, 0, 0, 224, 254, 0, 0, 0, 0, 0, 1])]

/-- What a run returns, and the address of the MADT after it. -/
def returned : Except Fault (Int × Slots) → Option (Int × Int)
  | .ok (r, s) => some (r, s 32)
  | .error _ => none

theorem shortEntry_published : ¬ ∀ (mem : Memory) (boot : Handoff) (s : Slots), AllOrNothing mem boot s := by
  intro h
  have hreturned : returned (acpiDiscover shortEntry bootAt4096 fun _ => 0) = some (0, 12288) := by decide +kernel
  cases hrun : acpiDiscover shortEntry bootAt4096 fun _ => 0 with
  | error e =>
      rw [hrun] at hreturned
      cases hreturned
  | ok p =>
      obtain ⟨r, s'⟩ := p
      rw [hrun] at hreturned
      obtain ⟨hr, hslot⟩ := Prod.mk.inj (Option.some.inj hreturned)
      have hpublished := ((h _ _ _ r s' hrun).1 hr).madtAddress
      rw [acpiMadtAddress, stateGet_run, hslot] at hpublished
      exact absurd (Prod.mk.inj (Except.ok.inj hpublished)).1 (by decide)

end Vnt.Os
