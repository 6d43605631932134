import Mathlib.Data.Finset.Card
import Mathlib.Tactic.Linarith

/-!
# `Lib.PagePool` — a pool of pages

What a page allocator is for, whatever its tables: a page that is usable and not taken may be handed out, a page
that is taken may come back unless it has been pinned, and a pinned page stays taken for good. The pages themselves
are of any type.
-/

namespace Vnt.Lib

/-- The usable pages, those taken, and those that are never given back. -/
structure PagePool (α : Type) [DecidableEq α] where
  usable : Finset α
  taken : Finset α
  pinned : Finset α
  pinned_taken : ∀ p ∈ pinned, p ∈ usable → p ∈ taken

namespace PagePool

variable {α : Type} [DecidableEq α] {pool : PagePool α} {pages : Finset α}

/-- The pages that can be handed out. -/
def free (pool : PagePool α) : Finset α := pool.usable \ pool.taken

/-- The pages that can come back. -/
def returnable (pool : PagePool α) : Finset α := (pool.usable ∩ pool.taken) \ pool.pinned

/-- Hand pages out. -/
def take (pool : PagePool α) (pages : Finset α) : PagePool α where
  usable := pool.usable
  taken := pool.taken ∪ pages
  pinned := pool.pinned
  pinned_taken := fun p hp hu => Finset.mem_union_left _ (pool.pinned_taken p hp hu)

/-- Take pages back. -/
def give (pool : PagePool α) (pages : Finset α) (h : pages ⊆ pool.returnable) : PagePool α where
  usable := pool.usable
  taken := pool.taken \ pages
  pinned := pool.pinned
  pinned_taken := by
    intro p hp hu
    refine Finset.mem_sdiff.mpr ⟨pool.pinned_taken p hp hu, fun hmem => ?_⟩
    exact (Finset.mem_sdiff.mp (h hmem)).2 hp

/-- Keep a taken page for good. -/
def pin (pool : PagePool α) (page : α) (h : page ∈ pool.taken) : PagePool α where
  usable := pool.usable
  taken := pool.taken
  pinned := insert page pool.pinned
  pinned_taken := by
    intro p hp hu
    rcases Finset.mem_insert.mp hp with rfl | hp
    · exact h
    · exact pool.pinned_taken p hp hu

theorem mem_free {p : α} : p ∈ pool.free ↔ p ∈ pool.usable ∧ p ∉ pool.taken := Finset.mem_sdiff

theorem mem_returnable {p : α} : p ∈ pool.returnable ↔ (p ∈ pool.usable ∧ p ∈ pool.taken) ∧ p ∉ pool.pinned := by
  rw [returnable, Finset.mem_sdiff, Finset.mem_inter]

/-- A free page is not pinned. -/
theorem not_pinned_of_free {p : α} (h : p ∈ pool.free) : p ∉ pool.pinned := fun hp =>
  (mem_free.mp h).2 (pool.pinned_taken p hp (mem_free.mp h).1)

theorem free_take (pool : PagePool α) (pages : Finset α) : (pool.take pages).free = pool.free \ pages := by
  ext p
  simp only [mem_free, take, Finset.mem_union, Finset.mem_sdiff]
  tauto

theorem card_free_take (h : pages ⊆ pool.free) : (pool.take pages).free.card = pool.free.card - pages.card := by
  rw [free_take, Finset.card_sdiff_of_subset h]

theorem free_give (h : pages ⊆ pool.returnable) : (pool.give pages h).free = pool.free ∪ pages := by
  ext p
  have hp := @h p
  rw [mem_returnable] at hp
  simp only [mem_free, give, Finset.mem_union, Finset.mem_sdiff]
  tauto

theorem card_free_give (h : pages ⊆ pool.returnable) :
    (pool.give pages h).free.card = pool.free.card + pages.card := by
  rw [free_give, Finset.card_union_of_disjoint]
  rw [Finset.disjoint_left]
  intro p hfree hp
  exact (mem_free.mp hfree).2 (mem_returnable.mp (h hp)).1.2

@[simp] theorem free_pin (page : α) (h : page ∈ pool.taken) : (pool.pin page h).free = pool.free := rfl

end PagePool

end Vnt.Lib

/-!
## Stretches of bytes and the pages they cover

A stretch of bytes covers some pages whole and meets others. Which they are is a matter of rounding its ends: inwards for
the pages that lie inside it, outwards for the pages it has a byte of.
-/

namespace Vnt.Lib

/-- The bytes from `start` up to `stop`. -/
structure Extent where
  start : Int
  stop : Int
  deriving DecidableEq

namespace Extent

def Has (e : Extent) (byte : Int) : Prop := e.start ≤ byte ∧ byte < e.stop

/-- Every byte of the one is in the other. -/
def Within (e e' : Extent) : Prop := ∀ byte, e.Has byte → e'.Has byte

/-- The two share a byte. -/
def Meets (e e' : Extent) : Prop := ∃ byte, e.Has byte ∧ e'.Has byte

/-- A page of `size` bytes. -/
def page (size number : Int) : Extent := ⟨number * size, (number + 1) * size⟩

variable {e e' : Extent} {size number : Int}

theorem within_iff (h : e.start < e.stop) : e.Within e' ↔ e'.start ≤ e.start ∧ e.stop ≤ e'.stop := by
  constructor
  · intro hall
    have hfirst := hall e.start ⟨Int.le_refl _, h⟩
    have hlast := hall (e.stop - 1) ⟨by omega, by omega⟩
    exact ⟨hfirst.1, by have := hlast.2; omega⟩
  · rintro ⟨hstart, hstop⟩ byte ⟨h₁, h₂⟩
    exact ⟨by omega, by omega⟩

theorem meets_iff (h : e.start < e.stop) (h' : e'.start < e'.stop) :
    e.Meets e' ↔ e.start < e'.stop ∧ e'.start < e.stop := by
  constructor
  · rintro ⟨byte, ⟨h₁, h₂⟩, h₃, h₄⟩
    exact ⟨by omega, by omega⟩
  · rintro ⟨h₁, h₂⟩
    exact ⟨max e.start e'.start, ⟨by omega, by omega⟩, by omega, by omega⟩

theorem not_meets_of_empty (h : e'.stop ≤ e'.start) : ¬ e.Meets e' := by
  rintro ⟨byte, -, h₁, h₂⟩
  omega

theorem page_start_lt_stop (hsize : 0 < size) : (page size number).start < (page size number).stop := by
  show number * size < (number + 1) * size
  rw [Int.add_mul]
  omega

/-- The pages inside a stretch: its start is rounded up and its stop down. -/
theorem page_within_iff (hsize : 0 < size) :
    (page size number).Within e ↔ (e.start + size - 1) / size ≤ number ∧ number < e.stop / size := by
  rw [within_iff (page_start_lt_stop hsize)]
  apply and_congr
  · rw [← Int.lt_add_one_iff (b := number), Int.ediv_lt_iff_lt_mul hsize, Int.add_mul]
    show e.start ≤ number * size ↔ _
    omega
  · rw [← Int.add_one_le_iff, Int.le_ediv_iff_mul_le hsize]
    rfl

/-- The pages that meet a stretch: its start is rounded down and its stop up. -/
theorem page_meets_iff (hsize : 0 < size) (h : e.start < e.stop) :
    (page size number).Meets e ↔ e.start / size ≤ number ∧ number < (e.stop + size - 1) / size := by
  rw [meets_iff (page_start_lt_stop hsize) h, and_comm]
  apply and_congr
  · rw [← Int.lt_add_one_iff (b := number), Int.ediv_lt_iff_lt_mul hsize]
    rfl
  · rw [← Int.add_one_le_iff (a := number), Int.le_ediv_iff_mul_le hsize, Int.add_mul]
    show number * size < e.stop ↔ _
    omega

end Extent

end Vnt.Lib
