import Mathlib.Data.List.Basic
import Mathlib.Tactic.Ring

/-!
# `Vnt.Lib.Ring`: bounded ring buffers

A ring of capacity `cap` is an array of cells with a head and a count that stay in range. Its contents are the cells
from the head on, around the end. `put` appends a block in at most two copies, `peek` reads one in at most two, `drop`
moves the head: the contents see a queue.
-/

namespace Vnt

variable {α : Type*} {cap : Nat}

/-- The array after `data` has been copied to `start`. -/
def blit (cells : Nat → α) (start : Nat) (data : List α) : Nat → α :=
  fun i => if start ≤ i then (data[i - start]?).getD (cells i) else cells i

/-- The `n` cells at `start`. -/
def slice (cells : Nat → α) (start n : Nat) : List α := (List.range n).map fun i => cells (start + i)

theorem blit_inside (cells : Nat → α) (start : Nat) (data : List α) {i : Nat} (h : i < data.length) :
    blit cells start data (start + i) = data[i] := by
  simp [blit, h]

theorem blit_outside (cells : Nat → α) {start : Nat} {data : List α} {i : Nat}
    (h : i < start ∨ start + data.length ≤ i) : blit cells start data i = cells i := by
  unfold blit
  by_cases hi : start ≤ i
  · have hlen : data.length ≤ i - start := by omega
    rw [if_pos hi, List.getElem?_eq_none hlen]
    rfl
  · rw [if_neg hi]

theorem slice_congr {cells cells' : Nat → α} {start n : Nat} (h : ∀ i < n, cells (start + i) = cells' (start + i)) :
    slice cells start n = slice cells' start n := by
  apply List.map_congr_left
  intro i hi
  exact h i (List.mem_range.mp hi)

theorem slice_add (cells : Nat → α) (start m n : Nat) :
    slice cells start (m + n) = slice cells start m ++ slice cells (start + m) n := by
  rw [slice, List.range_add, List.map_append, List.map_map]
  congr 1
  apply List.map_congr_left
  intro i _
  show cells (start + (m + i)) = cells (start + m + i)
  rw [Nat.add_assoc]

/-- A block behind the first `n` cells, as far as its first part. -/
theorem slice_blit_append (cells : Nat → α) (n : Nat) (data more : List α) :
    slice (blit cells n (data ++ more)) 0 (n + data.length) = slice cells 0 n ++ data := by
  rw [slice_add]
  congr 1
  · apply slice_congr
    intro i hi
    exact blit_outside _ (.inl (by omega))
  · apply List.ext_getElem
    · simp [slice]
    · intro i h₁ h₂
      have hread := blit_inside cells n (data ++ more) (show i < (data ++ more).length by
        rw [List.length_append]
        omega)
      simp only [slice, List.getElem_map, List.getElem_range, Nat.zero_add]
      rw [hread, List.getElem_append_left h₂]

theorem slice_blit (cells : Nat → α) (n : Nat) (data : List α) :
    slice (blit cells n data) 0 (n + data.length) = slice cells 0 n ++ data := by
  have hslice := slice_blit_append cells n data []
  rw [List.append_nil] at hslice
  exact hslice

/-- A ring buffer; the bounds are part of the value. -/
structure Ring (α : Type*) (cap : Nat) where
  cells : Nat → α
  head : Nat
  count : Nat
  head_lt : head < cap
  count_le : count ≤ cap

namespace Ring

variable (r : Ring α cap)

/-- The cell the next element goes to. -/
def tail : Nat := (r.head + r.count) % cap

def contents : List α := (List.range r.count).map fun i => r.cells ((r.head + i) % cap)

@[simp] theorem length_contents : r.contents.length = r.count := by simp [contents]

theorem cap_pos (r : Ring α cap) : 0 < cap := Nat.lt_of_le_of_lt (Nat.zero_le _) r.head_lt

theorem tail_lt : r.tail < cap := Nat.mod_lt _ r.cap_pos

/-- The ring with new cells and `n` elements more. -/
def fill (cells : Nat → α) (n : Nat) (h : r.count + n ≤ cap) : Ring α cap where
  cells := cells
  head := r.head
  count := r.count + n
  head_lt := r.head_lt
  count_le := h

/-- **What a write may touch.** New cells that keep the old elements and spell `data` behind them append `data`. -/
theorem contents_fill {cells : Nat → α} {data : List α} (h : r.count + data.length ≤ cap)
    (hold : ∀ i < r.count, cells ((r.head + i) % cap) = r.cells ((r.head + i) % cap))
    (hnew : ∀ i (hi : i < data.length), cells ((r.head + r.count + i) % cap) = data[i]) :
    (r.fill cells data.length h).contents = r.contents ++ data := by
  show (List.range (r.count + data.length)).map (fun i => cells ((r.head + i) % cap)) = _
  rw [List.range_add, List.map_append, List.map_map]
  congr 1
  · apply List.map_congr_left
    intro i hi
    exact hold i (List.mem_range.mp hi)
  · apply List.ext_getElem
    · simp
    · intro i h₁ h₂
      simp only [List.getElem_map, List.getElem_range, Function.comp_apply]
      rw [← Nat.add_assoc]
      exact hnew i h₂

/-- An index that runs over the end at most once. -/
theorem wrap {a : Nat} (h : a < 2 * cap) : a % cap = if a < cap then a else a - cap := by
  split
  · exact Nat.mod_eq_of_lt ‹_›
  · rw [Nat.mod_eq_sub_mod (by omega), Nat.mod_eq_of_lt (by omega)]

/-- Two positions of a window no longer than the ring are different cells. -/
theorem index_ne {i j : Nat} (hij : i < j) (hj : j < cap) : (r.head + i) % cap ≠ (r.head + j) % cap := by
  have hhead := r.head_lt
  rw [wrap (by omega), wrap (by omega)]
  split <;> split <;> omega

/-! ## One element -/

/-- The ring after one element has been stored at the tail. -/
def push (x : α) (h : r.count < cap) : Ring α cap := r.fill (Function.update r.cells r.tail x) 1 h

theorem contents_push (x : α) (h : r.count < cap) : (r.push x h).contents = r.contents ++ [x] := by
  have hfit : r.count + [x].length ≤ cap := h
  refine r.contents_fill hfit (fun i hi => ?_) fun i hi => ?_
  · exact Function.update_of_ne (r.index_ne hi h) _ _
  · have hzero : i = 0 := by simpa using hi
    subst hzero
    exact Function.update_self _ _ _

/-! ## Blocks -/

/-- The ring after a block has been copied behind the tail: up to the end of the array, and the rest to its start. -/
def put (data : List α) (h : r.count + data.length ≤ cap) : Ring α cap :=
  let first := min data.length (cap - r.tail)
  let cells := blit r.cells r.tail (data.take first)
  r.fill (if data.length > first then blit cells 0 (data.drop first) else cells) data.length h

theorem put_outside (data : List α) {p : Nat} (h : r.count + data.length ≤ cap)
    (hp : p < r.tail ∨ r.tail + min data.length (cap - r.tail) ≤ p)
    (hq : data.length - min data.length (cap - r.tail) ≤ p) : (r.put data h).cells p = r.cells p := by
  show (if data.length > _ then blit _ 0 _ else _) p = _
  split
  · rw [blit_outside _ (.inr (by rw [List.length_drop]; omega))]
    exact blit_outside _ (by rw [List.length_take]; omega)
  · exact blit_outside _ (by rw [List.length_take]; omega)

/-- The part of the block before the end of the array. -/
theorem put_first (data : List α) {i : Nat} (h : r.count + data.length ≤ cap)
    (hi : i < data.length) (hfirst : r.tail + i < cap) : (r.put data h).cells (r.tail + i) = data[i] := by
  have htail := r.tail_lt
  have htake : i < (data.take (min data.length (cap - r.tail))).length := by
    rw [List.length_take]
    omega
  show (if data.length > _ then blit _ 0 _ else _) (r.tail + i) = _
  split
  · rename_i hlong
    rw [blit_outside _ (.inr ?_), blit_inside _ _ _ htake, List.getElem_take]
    rw [List.length_drop]
    omega
  · rw [blit_inside _ _ _ htake, List.getElem_take]

/-- The part that goes to the start. -/
theorem put_second (data : List α) {i : Nat} (h : r.count + data.length ≤ cap)
    (hi : i < data.length) (hsecond : cap ≤ r.tail + i) : (r.put data h).cells (r.tail + i - cap) = data[i] := by
  have htail := r.tail_lt
  have hfirst : min data.length (cap - r.tail) = cap - r.tail := by omega
  have hdrop : r.tail + i - cap < (data.drop (cap - r.tail)).length := by
    rw [List.length_drop]
    omega
  show (if data.length > _ then blit _ 0 _ else _) (r.tail + i - cap) = _
  rw [hfirst, if_pos (by omega)]
  have hread := blit_inside (blit r.cells r.tail (data.take (cap - r.tail))) 0 _ hdrop
  rw [Nat.zero_add] at hread
  rw [hread, List.getElem_drop]
  congr 1
  omega

/-- **A block goes behind what is there.** -/
theorem contents_put (data : List α) (h : r.count + data.length ≤ cap) :
    (r.put data h).contents = r.contents ++ data := by
  have hhead := r.head_lt
  have htail : r.tail = if r.head + r.count < cap then r.head + r.count else r.head + r.count - cap :=
    wrap (by omega)
  refine r.contents_fill h (fun i hi => ?_) fun i hi => ?_
  · -- an old element lies outside both copies
    have hwrap := wrap (show r.head + i < 2 * cap by omega)
    apply r.put_outside data h
    · rw [hwrap]
      split at htail <;> split <;> omega
    · rw [hwrap]
      split at htail <;> split <;> omega
  · have hlt := r.tail_lt
    have hwrap := wrap (show r.tail + i < 2 * cap by omega)
    have hindex : (r.head + r.count + i) % cap = (r.tail + i) % cap := by
      rw [tail, Nat.mod_add_mod]
    rw [hindex, hwrap]
    by_cases hend : r.tail + i < cap
    · rw [if_pos hend]
      exact r.put_first data h hi hend
    · rw [if_neg hend]
      exact r.put_second data h hi (by omega)

/-- The first `n` elements: up to the end of the array, and the rest from its start. -/
def peek (n : Nat) : List α :=
  let first := min n (cap - r.head)
  slice r.cells r.head first ++ (if n > first then slice r.cells 0 (n - first) else [])

theorem peek_eq {n : Nat} (h : n ≤ r.count) : r.peek n = r.contents.take n := by
  have hhead := r.head_lt
  have hcount := r.count_le
  have hsecond : (if n > min n (cap - r.head) then slice r.cells 0 (n - min n (cap - r.head)) else []) =
      slice r.cells 0 (n - min n (cap - r.head)) := by
    split
    · rfl
    · rw [Nat.sub_eq_zero_of_le (by omega)]
      rfl
  have hlen : n = min n (cap - r.head) + (n - min n (cap - r.head)) := by omega
  rw [peek, hsecond, contents, ← List.map_take, List.take_range, Nat.min_eq_left h]
  conv => rhs; rw [hlen, List.range_add, List.map_append, List.map_map]
  congr 1
  · apply List.map_congr_left
    intro i hi
    have hi' := List.mem_range.mp hi
    rw [wrap (by omega), if_pos (by omega)]
  · apply List.map_congr_left
    intro i hi
    have hi' := List.mem_range.mp hi
    show r.cells (0 + i) = r.cells ((r.head + (min n (cap - r.head) + i)) % cap)
    rw [wrap (by omega), if_neg (by omega)]
    congr 1
    omega

/-- The ring without its first `n` elements. -/
def drop (n : Nat) : Ring α cap where
  cells := r.cells
  head := (r.head + n) % cap
  count := r.count - n
  head_lt := Nat.mod_lt _ r.cap_pos
  count_le := Nat.le_trans (Nat.sub_le _ _) r.count_le

theorem contents_drop (n : Nat) : (r.drop n).contents = r.contents.drop n := by
  apply List.ext_getElem
  · simp [drop]
  · intro i h₁ h₂
    simp only [contents, drop, List.getElem_map, List.getElem_range, List.getElem_drop]
    rw [Nat.mod_add_mod, Nat.add_assoc]

/-- A ring that is not empty begins with its head. -/
theorem contents_cons (h : r.count ≠ 0) : r.contents = r.cells r.head :: (r.drop 1).contents := by
  have hpos : 0 < r.contents.length := by
    rw [r.length_contents]
    omega
  have hfirst : r.contents[0] = r.cells r.head := by
    simp only [contents, List.getElem_map, List.getElem_range, Nat.add_zero]
    rw [Nat.mod_eq_of_lt r.head_lt]
  rw [contents_drop, ← hfirst, List.getElem_cons_drop hpos]
  rfl

end Ring

end Vnt
