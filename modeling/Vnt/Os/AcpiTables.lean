import Vnt.Os.Acpi
import Vnt.Os.InfoBlock

/-!
# `Os.AcpiTables` — what the tables say

The tables as the bytes of memory have them, without a run: what a valid table is, which entry of a root table is the
MADT, where the RSDP points. Each reader of `Os.Acpi` that stays inside the first GiB and does not overflow returns
what is said here.
-/

namespace Vnt.Os

open Lib

variable {mem : Memory} {s : Slots} {address offset x y root c : Int}

/-! ## Numbers and signatures -/

theorem acpiRead8_run (hstart : 0 ≤ address + offset) (hstop : address + offset + 1 ≤ 1073741824) :
    acpiRead8 mem address offset s = .ok (u8At mem (address + offset), s) := memRead_run hstart hstop

theorem acpiRead32_run (hstart : 0 ≤ address + offset) (hstop : address + offset + 4 ≤ 1073741824) :
    acpiRead32 mem address offset s = .ok (u32At mem (address + offset), s) := memRead_run hstart hstop

theorem acpiRead64_run (hstart : 0 ≤ address + offset) (hstop : address + offset + 8 ≤ 1073741824) :
    acpiRead64 mem address offset s = .ok (u64At mem (address + offset), s) :=
  (Prog.bind_run_ok (memRead_run hstart hstop)).trans rfl

/-- The bytes of a signature. -/
def spells (mem : Memory) (address : Int) : List Int → Bool
  | [] => true
  | byte :: rest => u8At mem address = byte && spells mem (address + 1) rest

theorem bytesAre_run (l : List Int) : ∀ {offset : Int}, 0 ≤ address + offset →
    address + offset + l.length ≤ 1073741824 →
      bytesAre mem address offset l s = .ok (spells mem (address + offset) l, s) := by
  induction l with
  | nil => exact fun _ _ => rfl
  | cons byte rest ih =>
      intro offset hstart hstop
      rw [List.length_cons] at hstop
      rw [bytesAre, Prog.bind_run_ok (acpiRead8_run hstart (by omega)), spells]
      by_cases hbyte : u8At mem (address + offset) = byte
      · rw [if_neg (not_not.mpr hbyte), ih (by omega) (by omega), decide_eq_true hbyte, Bool.true_and, Int.add_assoc]
      · rw [if_pos hbyte, decide_eq_false hbyte, Bool.false_and]
        rfl

/-! ## Checksums -/

def byteSum (mem : Memory) (address : Int) : Nat → Int
  | 0 => 0
  | count + 1 => u8At mem address + byteSum mem (address + 1) count

/-- The bytes of a table add up to 0. -/
def sumsToZero (mem : Memory) (address length : Int) : Bool := byteSum mem address length.toNat % 256 = 0

theorem checksumLoop_run (count : Nat) : ∀ {i sum : Int}, 0 ≤ sum → sum < 256 → 0 ≤ address → 0 ≤ i →
    address + i + count ≤ 1073741824 →
      checksumLoop mem address count i sum s = .ok ((sum + byteSum mem (address + i) count) % 256, s) := by
  induction count with
  | zero =>
      intro i sum h₁ h₂ _ _ _
      rw [byteSum, Int.add_zero, Int.emod_eq_of_lt h₁ h₂]
      rfl
  | succ count ih =>
      intro i sum h₁ h₂ ha hi hstop
      have hbyte := u8At_range mem (address + i)
      rw [checksumLoop, Prog.bind_run_ok (acpiRead8_run (by omega) (by omega)),
        Prog.bind_run_ok (addWord_run (by omega) (by omega)), Prog.bind_run_ok (addWord_run (by omega) (by omega)),
        ih (by omega) (by omega) ha (by omega) (by omega), byteSum, Int.emod_add_emod, Int.add_assoc, Int.add_assoc]

theorem acpiChecksum_run {length : Int} (haddress : 0 < address) (hlength : 0 < length)
    (hstop : address + length ≤ 1073741824) :
    acpiChecksum mem address length s = .ok (if sumsToZero mem address length = true then 1 else 0, s) := by
  have hcast : ((length.toNat : Nat) : Int) = length := by omega
  rw [acpiChecksum, if_neg (by omega), Prog.bind_run_ok (addWord_run (by omega) (by omega)), if_neg (by omega),
    Prog.bind_run_ok (checksumLoop_run _ (by omega) (by omega) (by omega) (by omega) (by omega)), Int.zero_add,
    Int.add_zero, sumsToZero]
  simp only [decide_eq_true_eq]
  rfl

theorem acpiSignatureIs_run (l : List Int) {a b c d : Int} (hl : l = [a, b, c, d]) (haddress : 0 ≤ address)
    (hstop : address + 4 ≤ 1073741824) :
    acpiSignatureIs mem address a b c d s = .ok (if spells mem address l = true then 1 else 0, s) := by
  rw [acpiSignatureIs, Prog.bind_run_ok (bytesAre_run _ (by omega) (by simp; omega)), Int.add_zero, hl]
  rfl

/-! ## Tables -/

/-- The least number whose sum with 36 overflows. -/
def unreachable : Int := 9223372036854775772

/-- The length of the table at an address, or 0. -/
def tableLength (mem : Memory) (address : Int) : Int :=
  if address < 4096 ∨ address + 36 > 1073741824 then 0
  else
    let length := u32At mem (address + 4)
    if length < 36 ∨ length > 1048576 ∨ address + length > 1073741824 then 0 else length

theorem acpiTableLength_run (h : address < unreachable) :
    acpiTableLength mem address s = .ok (tableLength mem address, s) := by
  unfold unreachable at h
  unfold acpiTableLength tableLength
  by_cases hlow : address < 4096
  · rw [if_pos hlow, if_pos (.inl hlow)]
    rfl
  rw [if_neg hlow, Prog.bind_run_ok (addWord_run (by omega) (by omega))]
  by_cases hheader : address + 36 > 1073741824
  · rw [if_pos hheader, if_pos (.inr hheader)]
    rfl
  have hlength := u32At_range mem (address + 4)
  have hin : ¬(address < 4096 ∨ address + 36 > 1073741824) := by omega
  rw [if_neg hheader, Prog.bind_run_ok (acpiRead32_run (by omega) (by omega)), if_neg hin]
  simp only
  by_cases hrange : u32At mem (address + 4) < 36 ∨ u32At mem (address + 4) > 1048576
  · rw [if_pos hrange, if_pos (by omega)]
    rfl
  rw [if_neg hrange, Prog.bind_run_ok (addWord_run (by omega) (by omega))]
  by_cases hstop : address + u32At mem (address + 4) > 1073741824
  · rw [if_pos hstop, if_pos (by omega)]
    rfl
  · rw [if_neg hstop, if_neg (by omega)]
    rfl

/-- What a length that is not 0 says. -/
theorem tableLength_pos (h : tableLength mem address ≠ 0) : 4096 ≤ address ∧ 36 ≤ tableLength mem address ∧
    tableLength mem address ≤ 1048576 ∧ address + tableLength mem address ≤ 1073741824 := by
  unfold tableLength at h ⊢
  split
  · rename_i hout
    rw [if_pos hout] at h
    exact absurd rfl h
  · rename_i hin
    rw [if_neg hin] at h
    simp only at h ⊢
    split
    · rename_i hbad
      rw [if_pos hbad] at h
      exact absurd rfl h
    · omega

/-- `APIC`. -/
def madtSignature : List Int := [65, 80, 73, 67]

/-- The entry `c` of a root table is the MADT. -/
def isMadt (mem : Memory) (c : Int) : Bool :=
  4096 ≤ c && c + 36 ≤ 1073741824 && spells mem c madtSignature && 44 ≤ tableLength mem c &&
    sumsToZero mem c (tableLength mem c)

theorem isMadtEntry_run (h : c < unreachable) : isMadtEntry mem c s = .ok (isMadt mem c, s) := by
  have hword := h
  unfold unreachable at hword
  unfold isMadtEntry isMadt
  by_cases hlow : c ≥ 4096
  swap
  · rw [if_neg hlow, decide_eq_false (by omega : ¬ 4096 ≤ c)]
    rfl
  rw [if_pos hlow, Prog.bind_run_ok (addWord_run (by omega) (by omega)), decide_eq_true (by omega : 4096 ≤ c)]
  by_cases hheader : c + 36 ≤ 1073741824
  swap
  · rw [if_neg hheader, decide_eq_false hheader]
    rfl
  rw [if_pos hheader, decide_eq_true hheader,
    Prog.bind_run_ok (acpiSignatureIs_run madtSignature rfl (by omega) (by omega))]
  by_cases hsigned : spells mem c madtSignature = true
  swap
  · rw [if_neg hsigned, if_neg (by decide), Bool.eq_false_iff.mpr hsigned]
    rfl
  rw [if_pos hsigned, if_pos rfl, hsigned, Prog.bind_run_ok (acpiTableLength_run h)]
  by_cases hlength : tableLength mem c ≥ 44
  swap
  · rw [if_neg hlength, decide_eq_false (by omega : ¬ 44 ≤ tableLength mem c)]
    rfl
  obtain ⟨-, -, -, hstop⟩ := tableLength_pos (by omega : tableLength mem c ≠ 0)
  rw [if_pos hlength, decide_eq_true (by omega : 44 ≤ tableLength mem c),
    Prog.bind_run_ok (acpiChecksum_run (by omega) (by omega) hstop)]
  cases hsum : sumsToZero mem c (tableLength mem c)
  · rfl
  · rfl

/-- An address whose sum with 36 does not fit. -/
theorem isMadtEntry_fault (h : unreachable ≤ c) : isMadtEntry mem c s = .error .arithmetic := by
  unfold unreachable at h
  have hfault : addWord c 36 s = .error .arithmetic := by
    apply word_fault
    unfold InWord
    omega
  rw [isMadtEntry, if_pos (by omega), Prog.bind_run, hfault]

/-! ## Readers -/

theorem checksumLoop_reads (count : Nat) : ∀ i sum, Reads (checksumLoop mem address count i sum) := by
  induction count with
  | zero => exact fun _ sum => .pure sum
  | succ count ih =>
      exact fun _ _ => .bind (.memRead ..) fun _ => .bind (.word _) fun _ => .bind (.word _) fun _ => ih _ _

theorem acpiChecksum_reads (mem : Memory) (address length : Int) : Reads (acpiChecksum mem address length) :=
  .ite (.pure 0) (.bind (.word _) fun _ => .ite (.pure 0) (.bind (checksumLoop_reads ..) fun _ => .pure _))

theorem bytesAre_reads (l : List Int) : ∀ offset, Reads (bytesAre mem address offset l) := by
  induction l with
  | nil => exact fun _ => .pure true
  | cons byte rest ih => exact fun _ => .bind (.memRead ..) fun _ => .ite (.pure false) (ih _)

theorem acpiIsRsdp_reads (mem : Memory) (address : Int) : Reads (acpiIsRsdp mem address) := by
  refine .ite (.pure 0) (.bind (.word _) fun _ => .ite (.pure 0) (.bind (bytesAre_reads ..) fun _ => .ite (.pure 0) ?_))
  refine .bind (acpiChecksum_reads ..) fun _ => .ite (.pure 0) (.bind (.memRead ..) fun _ => .ite ?_ (.pure 1))
  refine .bind (.memRead ..) fun _ => .ite (.pure 0) (.bind (.word _) fun _ => .ite (.pure 0) ?_)
  exact .bind (acpiChecksum_reads ..) fun _ => .pure _

theorem rsdpOfTag_reads (mem : Memory) (info cursor tagType tagSize : Int) :
    Reads (rsdpOfTag mem info cursor tagType tagSize) := by
  have hvalid : ∀ candidate, Reads (acpiIsRsdp mem candidate >>= fun valid =>
      (pure (if valid = 1 then candidate else 0) : Kernel Int)) := fun candidate =>
    .bind (acpiIsRsdp_reads mem candidate) fun _ => .pure _
  refine .ite (.bind (.word _) fun _ => .bind (.word _) fun candidate => .ite (.ite ?_ (.pure 0)) ?_) (.pure 0)
  · exact .bind (.memRead ..) fun _ => .ite (hvalid candidate) (.pure 0)
  · exact .ite (hvalid candidate) (.pure 0)

theorem findRsdpLoop_reads {info total : Int} (fuel : Nat) : ∀ cursor, Reads (findRsdpLoop mem info total fuel cursor) := by
  induction fuel with
  | zero => exact fun _ => .fault _
  | succ fuel ih =>
      intro cursor
      refine .bind (.word _) fun _ => .ite (.bind (readTag_reads ..) fun tag => .ite (.pure 0) ?_) (.pure 0)
      refine .bind (.word _) fun _ => .ite (.pure 0) (.ite (.pure 0) (.bind (rsdpOfTag_reads ..) fun candidate => ?_))
      exact .ite (.pure candidate) (.bind (nextTag_reads ..) fun next => ih next)

theorem acpiFindRsdp_reads (mem : Memory) (boot : Handoff) : Reads (acpiFindRsdp mem boot) :=
  .bind (physInfoSize_reads mem boot) fun _ => .ite (.pure 0) (findRsdpLoop_reads _ _)

theorem acpiTableLength_reads (mem : Memory) (address : Int) : Reads (acpiTableLength mem address) :=
  .ite (.pure 0) (.bind (.word _) fun _ => .ite (.pure 0) (.bind (.memRead ..) fun length => .ite (.pure 0)
    (.bind (.word _) fun _ => .ite (.pure 0) (.pure length))))

theorem acpiSignatureIs_reads (mem : Memory) (address a b c d : Int) : Reads (acpiSignatureIs mem address a b c d) :=
  .bind (bytesAre_reads ..) fun _ => .pure _

theorem acpiRead64_reads (mem : Memory) (address offset : Int) : Reads (acpiRead64 mem address offset) :=
  .bind (.memRead ..) fun _ => .pure _

theorem isMadtEntry_reads (mem : Memory) (c : Int) : Reads (isMadtEntry mem c) := by
  refine .ite (.bind (.word _) fun _ => .ite (.bind (acpiSignatureIs_reads ..) fun _ => .ite ?_ (.pure false))
    (.pure false)) (.pure false)
  exact .bind (acpiTableLength_reads ..) fun _ => .ite (.bind (acpiChecksum_reads ..) fun _ => .pure _) (.pure false)

theorem readRootEntry_reads (mem : Memory) (root size index : Int) : Reads (readRootEntry mem root size index) :=
  .bind (.word _) fun _ => .bind (.word _) fun _ => .ite (acpiRead64_reads ..) (.memRead ..)

theorem findMadtLoop_reads {size : Int} (count : Nat) : ∀ index, Reads (findMadtLoop mem root size count index) := by
  induction count with
  | zero => exact fun _ => .pure 0
  | succ count ih =>
      exact fun _ => .bind (readRootEntry_reads ..) fun candidate => .bind (isMadtEntry_reads ..) fun _ =>
        .ite (.pure candidate) (.bind (.word _) fun next => ih next)

theorem acpiFindMadtInRoot_blind (mem : Memory) (root xsdt : Int) : Blind (acpiFindMadtInRoot mem root xsdt) := by
  have zero : Blind (pure 0 : Kernel Int) := (Reads.pure 0).blind
  refine .bind (acpiTableLength_reads ..).blind fun _ => .ite zero (.bind (acpiChecksum_reads ..).blind fun _ => ?_)
  refine .ite zero (.bind (Reads.word _).blind fun _ => .ite zero (.ite zero ?_))
  exact .bind (.stateSet _ _) fun _ => (findMadtLoop_reads ..).blind

/-- Discovery does not look at the state before it has the MADT. -/
theorem locateMadt_blind (mem : Memory) (boot : Handoff) : Blind (locateMadt mem boot) := by
  have zero : Blind (pure 0 : Kernel Int) := (Reads.pure 0).blind
  have hxsdt : ∀ rsdp revision, Reads (readXsdtAddress mem rsdp revision) := fun _ _ =>
    .ite (acpiRead64_reads ..) (.pure 0)
  have hroot : ∀ rsdp, Reads (rootOfRsdp mem rsdp) := fun _ =>
    .bind (.memRead ..) fun _ => .bind (hxsdt _ _) fun _ => .ite (.bind (.memRead ..) fun _ => .pure _) (.pure _)
  have hsigned : ∀ root xsdt, Reads (rootSigned mem root xsdt) := fun _ _ =>
    .ite (acpiSignatureIs_reads ..) (acpiSignatureIs_reads ..)
  refine .bind (acpiFindRsdp_reads mem boot).blind fun rsdp => .ite zero (.bind (.stateSet _ _) fun _ => ?_)
  refine .bind (Reads.memRead ..).blind fun _ => .bind (.stateSet _ _) fun _ => .bind (hroot rsdp).blind fun root => ?_
  refine .ite zero (.bind (Reads.word _).blind fun _ => .ite zero (.bind (hsigned ..).blind fun _ => .ite zero ?_))
  exact .bind (.stateSet _ _) fun _ => acpiFindMadtInRoot_blind ..

end Vnt.Os
