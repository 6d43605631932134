import Mathlib.Data.UInt
import Vnt.Lib.Prog

/-!
# `Os.Memory` — what freestanding code does with memory and integers

The code that `freestanding_x86.c` emits for VNT: additions and multiplications of 64-bit integers that go to `ud2` when
they overflow, reads of 1, 4 and 8 bytes that are zero-extended, and the words of the kernel's state. The first GiB is
what the kernel's page tables map. Integers are `Int`s of which `word` keeps those that fit; no operand of a division
is negative here, so `/` and `%` do.
-/

namespace Vnt.Os

open Lib

/-- Physical memory. -/
abbrev Memory := Int → UInt8

/-- The words of `vntos_state`. -/
abbrev Slots := Int → Int

/-- What stops the kernel. -/
inductive Fault where
  /-- `.Lvnt_arithmetic_fault`. -/
  | arithmetic
  /-- A read outside the first GiB. -/
  | outside (address : Int)
  /-- A loop that goes on without end. -/
  | endless
  deriving DecidableEq

/-- Code that works on the state. -/
abbrev Kernel (α : Type) := Prog Slots Fault α

def InWord (z : Int) : Prop := -9223372036854775808 ≤ z ∧ z < 9223372036854775808

instance (z : Int) : Decidable (InWord z) := inferInstanceAs (Decidable (_ ∧ _))

/-- The result of an operation, when it fits. -/
def word (z : Int) : Kernel Int := if InWord z then pure z else Prog.fault .arithmetic

def addWord (x y : Int) : Kernel Int := word (x + y)

def subWord (x y : Int) : Kernel Int := word (x - y)

def mulWord (x y : Int) : Kernel Int := word (x * y)

def stateGet (index : Int) : Kernel Int := do
  let slots ← Prog.get
  pure (slots index)

def stateSet (index value : Int) : Kernel Unit := Prog.modify fun slots => Function.update slots index value

/-! ## Memory -/

/-- The first byte that is not mapped. -/
def memoryEnd : Int := 1073741824

/-- The number that `width` bytes spell. -/
def bytesAt (mem : Memory) (address : Int) : Nat → Int
  | 0 => 0
  | width + 1 => ((mem address).toNat : Int) + 256 * bytesAt mem (address + 1) width

/-- A read of `width` bytes at `(%rdi,%rsi)`. -/
def memRead (mem : Memory) (width : Nat) (address offset : Int) : Kernel Int :=
  let effective := (address + offset) % 18446744073709551616
  if effective + width ≤ memoryEnd then pure (bytesAt mem effective width) else Prog.fault (.outside effective)

def memReadU8 (mem : Memory) : Int → Int → Kernel Int := memRead mem 1

def memReadU32 (mem : Memory) : Int → Int → Kernel Int := memRead mem 4

/-- A number of 64 bits as a signed one. -/
def signed (z : Int) : Int := if z < 9223372036854775808 then z else z - 18446744073709551616

def memReadU64 (mem : Memory) (address offset : Int) : Kernel Int := do
  let value ← memRead mem 8 address offset
  pure (signed value)

/-- Memory that holds some bytes at some addresses, and 0 elsewhere. -/
def memoryOf (regions : List (Int × List UInt8)) : Memory := fun address =>
  match regions.find? fun region => region.1 ≤ address ∧ address < region.1 + region.2.length with
  | some region => region.2.getD (address - region.1).toNat 0
  | none => 0

/-! ## What the code returns -/

variable {α : Type} {mem : Memory} {s : Slots} {x y address offset : Int} {width : Nat}

theorem word_run {z : Int} (h : InWord z) : word z s = .ok (z, s) := by
  rw [word, if_pos h]
  rfl

theorem word_fault {z : Int} (h : ¬ InWord z) : word z s = .error .arithmetic := by
  rw [word, if_neg h]
  rfl

theorem bytesAt_range (mem : Memory) (width : Nat) : ∀ address, 0 ≤ bytesAt mem address width ∧
    bytesAt mem address width < 256 ^ width := by
  induction width with
  | zero => exact fun _ => ⟨Int.le_refl 0, Int.zero_lt_one⟩
  | succ width ih =>
      intro address
      have hrest := ih (address + 1)
      have hbyte := (mem address).toNat_lt
      rw [bytesAt, pow_succ]
      omega

/-- A read inside the first GiB. -/
theorem memRead_run (hstart : 0 ≤ address + offset) (hstop : address + offset + width ≤ memoryEnd) :
    memRead mem width address offset s = .ok (bytesAt mem (address + offset) width, s) := by
  have heffective : (address + offset) % 18446744073709551616 = address + offset := by
    rw [memoryEnd] at hstop
    omega
  unfold memRead
  simp only [heffective]
  rw [if_pos hstop]
  rfl

/-! ## Numbers in memory -/

def u8At (mem : Memory) (address : Int) : Int := bytesAt mem address 1

def u32At (mem : Memory) (address : Int) : Int := bytesAt mem address 4

def u64At (mem : Memory) (address : Int) : Int := signed (bytesAt mem address 8)

theorem u8At_range (mem : Memory) (address : Int) : 0 ≤ u8At mem address ∧ u8At mem address < 256 :=
  bytesAt_range mem 1 address

theorem u32At_range (mem : Memory) (address : Int) : 0 ≤ u32At mem address ∧ u32At mem address < 4294967296 :=
  bytesAt_range mem 4 address

theorem addWord_run (hlow : -9223372036854775808 ≤ x + y) (hhigh : x + y < 9223372036854775808) :
    addWord x y s = .ok (x + y, s) := word_run ⟨hlow, hhigh⟩

theorem mulWord_run (hlow : -9223372036854775808 ≤ x * y) (hhigh : x * y < 9223372036854775808) :
    mulWord x y s = .ok (x * y, s) := word_run ⟨hlow, hhigh⟩

/-! ## Writes -/

/-- Memory after the low `width` bytes of a number have been written. -/
def store (mem : Memory) : Int → Nat → Int → Memory
  | _, 0, _ => mem
  | address, width + 1, value =>
      Function.update (store mem (address + 1) width (value / 256)) address (UInt8.ofInt (value % 256))

theorem bytesAt_congr {mem mem' : Memory} (width : Nat) : ∀ {address : Int},
    (∀ a, address ≤ a → a < address + width → mem' a = mem a) → bytesAt mem' address width = bytesAt mem address width := by
  induction width with
  | zero => exact fun _ => rfl
  | succ width ih =>
      intro address h
      rw [bytesAt, bytesAt, h address (Int.le_refl _) (by omega), ih fun a h₁ h₂ => h a (by omega) (by omega)]

/-- A write leaves the other bytes alone. -/
theorem store_other (mem : Memory) (width : Nat) : ∀ {address value a : Int}, a < address ∨ address + width ≤ a →
    store mem address width value a = mem a := by
  induction width with
  | zero => exact fun _ => rfl
  | succ width ih =>
      intro address value a h
      rw [store, Function.update_of_ne (by omega), ih (by omega)]

/-- The digits of a number in base 256 spell it. -/
theorem bytesAt_of_bytes (width : Nat) : ∀ {address value : Int},
    (∀ k < width, ((mem (address + k)).toNat : Int) = value / 256 ^ k % 256) → 0 ≤ value → value < 256 ^ width →
      bytesAt mem address width = value := by
  induction width with
  | zero =>
      intro address value _ h₀ h₁
      rw [pow_zero] at h₁
      rw [bytesAt]
      omega
  | succ width ih =>
      intro address value hbytes h₀ h₁
      have hfirst := hbytes 0 (Nat.zero_lt_succ _)
      rw [pow_zero, Int.ediv_one, Nat.cast_zero, Int.add_zero] at hfirst
      have hrest : ∀ k < width, ((mem (address + 1 + k)).toNat : Int) = value / 256 / 256 ^ k % 256 := by
        intro k hk
        have hnext := hbytes (k + 1) (Nat.succ_lt_succ hk)
        rw [pow_succ', ← Int.ediv_ediv_of_nonneg (by decide)] at hnext
        rw [← hnext]
        push_cast
        congr 3
        omega
      rw [bytesAt, hfirst, ih hrest (by omega) (by rw [pow_succ] at h₁; omega)]
      omega

theorem toNat_ofInt_emod (value : Int) : ((UInt8.ofInt (value % 256)).toNat : Int) = value % 256 := by
  rw [UInt8.ofInt, UInt8.toNat_ofNat']
  omega

/-- What fits of a number is read back. -/
theorem bytesAt_store (mem : Memory) (width : Nat) : ∀ {address value : Int},
    bytesAt (store mem address width value) address width = value % 256 ^ width := by
  induction width with
  | zero =>
      intro address value
      rw [pow_zero, Int.emod_one, bytesAt]
  | succ width ih =>
      intro address value
      have hrest : bytesAt (store mem address (width + 1) value) (address + 1) width =
          bytesAt (store mem (address + 1) width (value / 256)) (address + 1) width := by
        refine bytesAt_congr width fun a ha _ => ?_
        rw [store, Function.update_of_ne (by omega)]
      have hsplit : value % (256 * 256 ^ width) = value % 256 + 256 * (value / 256 % 256 ^ width) := by
        rw [Int.emod_def value (256 * 256 ^ width), Int.emod_def value 256, Int.emod_def (value / 256),
          Int.ediv_ediv_of_nonneg (by decide), Int.mul_sub, Int.mul_assoc]
        omega
      rw [bytesAt, hrest, ih, store, Function.update_self, toNat_ofInt_emod, pow_succ', hsplit]

theorem u64At_store {value : Int} (mem : Memory) (address : Int) (h₀ : 0 ≤ value) (h₁ : value < 9223372036854775808) :
    u64At (store mem address 8 value) address = value := by
  have hfits : value < 256 ^ 8 := Int.lt_trans h₁ (by decide)
  rw [u64At, bytesAt_store, Int.emod_eq_of_lt h₀ hfits, signed, if_pos h₁]

theorem u64At_congr {mem mem' : Memory} (h : ∀ a, address ≤ a → a < address + 8 → mem' a = mem a) :
    u64At mem' address = u64At mem address := by
  rw [u64At, u64At, bytesAt_congr 8 h]

/-! ## Readers -/

/-- The program neither looks at the state nor changes it. -/
def Reads (m : Kernel α) : Prop := ∃ r : Except Fault α, ∀ s, m s = r.map fun a => (a, s)

variable {β : Type} {m m' : Kernel α} {f : α → Kernel β}

theorem Reads.pure (a : α) : Reads (Pure.pure a : Kernel α) := ⟨.ok a, fun _ => rfl⟩

theorem Reads.fault (e : Fault) : Reads (Prog.fault e : Kernel α) := ⟨.error e, fun _ => rfl⟩

theorem Reads.bind (hm : Reads m) (hf : ∀ a, Reads (f a)) : Reads (m >>= f) := by
  obtain ⟨r, hr⟩ := hm
  cases r with
  | error e =>
      refine ⟨.error e, fun s => ?_⟩
      rw [Prog.bind_run, hr s]
      rfl
  | ok a =>
      obtain ⟨r', hr'⟩ := hf a
      exact ⟨r', fun s => (Prog.bind_run_ok (hr s)).trans (hr' s)⟩

theorem Reads.ite {c : Prop} [Decidable c] (hm : Reads m) (hm' : Reads m') : Reads (if c then m else m') := by
  split
  · exact hm
  · exact hm'

theorem Reads.word (z : Int) : Reads (word z) := .ite (.pure z) (.fault _)

theorem Reads.memRead (mem : Memory) (width : Nat) (address offset : Int) : Reads (memRead mem width address offset) :=
  .ite (.pure _) (.fault _)

/-- What a reader returns from one state it returns from every state. -/
theorem Reads.run (hm : Reads m) {a : α} {s s' : Slots} (h : m s = .ok (a, s')) (t : Slots) : m t = .ok (a, t) := by
  obtain ⟨r, hr⟩ := hm
  cases r with
  | error e =>
      rw [hr s] at h
      cases h
  | ok b =>
      rw [hr s] at h
      cases h
      exact hr t

/-! ## Programs that do not look at the state -/

/-- The program may change the state, but what it returns does not depend on it. -/
def Blind (m : Kernel α) : Prop := ∃ (r : Except Fault α) (change : Slots → Slots), ∀ s, m s = r.map fun a => (a, change s)

theorem Reads.blind (hm : Reads m) : Blind m := by
  obtain ⟨r, hr⟩ := hm
  exact ⟨r, id, hr⟩

theorem Blind.bind (hm : Blind m) (hf : ∀ a, Blind (f a)) : Blind (m >>= f) := by
  obtain ⟨r, change, hr⟩ := hm
  cases r with
  | error e =>
      refine ⟨.error e, id, fun s => ?_⟩
      rw [Prog.bind_run, hr s]
      rfl
  | ok a =>
      obtain ⟨r', change', hr'⟩ := hf a
      exact ⟨r', change' ∘ change, fun s => (Prog.bind_run_ok (hr s)).trans (hr' _)⟩

theorem Blind.ite {c : Prop} [Decidable c] (hm : Blind m) (hm' : Blind m') : Blind (if c then m else m') := by
  split
  · exact hm
  · exact hm'

theorem Blind.stateSet (index value : Int) : Blind (stateSet index value) := ⟨.ok (), _, fun _ => rfl⟩

/-- What such a program returns from one state it returns from every state. -/
theorem Blind.run (hm : Blind m) {a : α} {s s' : Slots} (h : m s = .ok (a, s')) (t : Slots) :
    ∃ t', m t = .ok (a, t') := by
  obtain ⟨r, change, hr⟩ := hm
  cases r with
  | error e =>
      rw [hr s] at h
      cases h
  | ok b =>
      rw [hr s] at h
      cases h
      exact ⟨_, hr t⟩

end Vnt.Os
