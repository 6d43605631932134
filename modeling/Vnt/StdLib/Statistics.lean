import Vnt.StdLib.Arrays

/-!
# `StdLib.Statistics` — sorting and the median (`statistics.vnt`)

`sorted_copy` writes into an array that it makes, and reads the one that it was given. Both are references of the hosted
program, so the arrays live on a heap here: what happens to the caller's array is a question of the heap that comes back.
`&&` evaluates its right side only behind a left side that is true.
-/

namespace Vnt.StdLib

open Lib (Turn)

/-- The arrays of a program. A reference is the number of its array. -/
abbrev ArrayHeap := List (List Val)

variable (heap : ArrayHeap) (ref : Nat)

/-- The array of a reference. -/
def arrayOf : Hosted (List Val) :=
  match heap[ref]? with
  | some items => .ok items
  | none => .error .stuck

/-- `vnt_len` -/
def heapLen : Hosted Nat := do
  let items ← arrayOf heap ref
  pure items.length

/-- `vnt_array_get` -/
def heapGet (i : Int) : Hosted Val := do
  let items ← arrayOf heap ref
  arrayGet items i

/-- `vnt_array_set` -/
def heapSet (i : Int) (v : Val) : Hosted ArrayHeap := do
  let items ← arrayOf heap ref
  let items ← arraySet items i v
  pure (heap.set ref items)

/-- `range(size)`, a new array. -/
def heapRange (size : Nat) : Hosted (Nat × ArrayHeap) := do
  let items ← range size
  pure (heap.length, heap ++ [items])

/-- `vnt_gt` -/
def vntGreater : Val → Val → Hosted Bool
  | .int x, .int y => .ok (decide (x > y))
  | _, _ => fail "arithmetic requires numbers."

/-! ## `sorted_copy` -/

/-- `while i < size { result[i] = values[i]; i += 1 }` -/
def copyCellsTurn (values result size : Nat) : Nat × ArrayHeap → Hosted (Turn (Nat × ArrayHeap) ArrayHeap)
  | (i, heap) =>
      if i < size then do
        let v ← heapGet heap values i
        let heap ← heapSet heap result i v
        pure (.next (i + 1, heap))
      else pure (.done heap)

/-- `while j >= 0 && result[j] > current { result[j + 1] = result[j]; j -= 1 }` -/
def shiftTurn (result : Nat) (current : Val) : Int × ArrayHeap → Hosted (Turn (Int × ArrayHeap) (Int × ArrayHeap))
  | (j, heap) =>
      if j ≥ 0 then do
        let v ← heapGet heap result j
        if ← vntGreater v current then do
          let v ← heapGet heap result j
          let heap ← heapSet heap result (j + 1) v
          pure (.next (j - 1, heap))
        else pure (.done (j, heap))
      else pure (.done (j, heap))

/-- `while i < size { current = result[i]; … result[j + 1] = current; i += 1 }` -/
def insertTurn (result size : Nat) : Nat × ArrayHeap → Hosted (Turn (Nat × ArrayHeap) ArrayHeap)
  | (i, heap) =>
      if i < size then do
        let current ← heapGet heap result i
        let (j, heap) ← whileLoop (size + 1) (shiftTurn result current) ((i : Int) - 1, heap)
        let heap ← heapSet heap result (j + 1) current
        pure (.next (i + 1, heap))
      else pure (.done heap)

def sortedCopy (values : Nat) : Hosted (Nat × ArrayHeap) := do
  let size ← heapLen heap values
  let (result, heap) ← heapRange heap size
  let heap ← whileLoop (size + 1) (copyCellsTurn values result size) (0, heap)
  let heap ← whileLoop (size + 1) (insertTurn result size) (1, heap)
  pure (result, heap)

def sorted (values : Nat) : Hosted (Nat × ArrayHeap) := sortedCopy heap values

/-! ## `median` -/

/-- What `median` returns: an item, or half of a sum as a float, `sum * 1.0 / 2`. -/
inductive Middle where
  | item (v : Val)
  | half (sum : Val)

/-- `if i == place { slot = ordered[i] }` -/
def itemAt (ordered : Nat) (i : Nat) (place : Int) (slot : Val) : Hosted Val :=
  if (i : Int) = place then heapGet heap ordered i else pure slot

/-- `while i < size { if i == target - 1 { lower = ordered[i] } if i == target { upper = ordered[i] } i += 1 }` -/
def medianTurn (ordered size target : Nat) : Nat × Val × Val → Hosted (Turn (Nat × Val × Val) (Val × Val))
  | (i, lower, upper) =>
      if i < size then do
        let lower ← itemAt heap ordered i ((target : Int) - 1) lower
        let upper ← itemAt heap ordered i target upper
        pure (.next (i + 1, lower, upper))
      else pure (.done (lower, upper))

def median (values : Nat) : Hosted (Middle × ArrayHeap) := do
  let size ← heapLen heap values
  if size = 0 then pure (.item (.int 0), heap)
  else do
    let (ordered, heap) ← sortedCopy heap values
    let (lower, upper) ← whileLoop (size + 1) (medianTurn heap ordered size (size / 2)) (0, .int 0, .int 0)
    if size % 2 = 1 then pure (.item upper, heap)
    else do
      let sum ← vntAddValues lower upper
      pure (.half sum, heap)

end Vnt.StdLib

/-!
## `sorted` sorts a copy

The new array is the last of the heap, and nothing else of the heap is written. While an item is held, the array has a place
too many: the items below it and those above it are the sorted prefix, and what stands between them is not looked at again.
-/

namespace Vnt.StdLib

open Lib (Turn)

variable {heap : ArrayHeap} {items : List Val} {ref i n : Nat} {zs : List Int}

/-! ## The heap -/

theorem arrayOf_ok (h : heap[ref]? = some items) : arrayOf heap ref = .ok items := by
  rw [arrayOf, h]

theorem heapGet_ok (h : heap[ref]? = some items) (hi : i < items.length) : heapGet heap ref i = .ok items[i] := by
  rw [heapGet, arrayOf_ok h]
  exact arrayGet_ok hi

theorem heapSet_ok (h : heap[ref]? = some items) (hi : i < items.length) (v : Val) :
    heapSet heap ref i v = .ok (heap.set ref (items.set i v)) := by
  rw [heapSet, arrayOf_ok h]
  show (arraySet items i v >>= _) = _
  rw [arraySet_ok hi]
  rfl

/-- The array that was made last. -/
theorem newest_getElem (heap : ArrayHeap) (items : List Val) : (heap ++ [items])[heap.length]? = some items := by
  rw [List.getElem?_append_right (Nat.le_refl _), Nat.sub_self]
  rfl

theorem newest_set (heap : ArrayHeap) (items items' : List Val) :
    (heap ++ [items]).set heap.length items' = heap ++ [items'] := by
  rw [List.set_append_right _ _ (Nat.le_refl _), Nat.sub_self]
  rfl

theorem newestSet_ok (hi : i < items.length) (v : Val) :
    heapSet (heap ++ [items]) heap.length i v = .ok (heap ++ [items.set i v]) := by
  rw [heapSet_ok (newest_getElem heap items) hi, newest_set]

/-! ## The copy -/

theorem copyCells_ok {values : List Val} (h : heap[ref]? = some values) (hlen : items.length = values.length) :
    whileLoop (values.length + 1) (copyCellsTurn ref heap.length values.length) (0, heap ++ [items]) =
      .ok (heap ++ [values]) := by
  have hmade : ref < heap.length := (List.getElem?_eq_some_iff.mp h).1
  have hold : ∀ items, (heap ++ [items])[ref]? = some values := fun items => by
    rw [List.getElem?_append_left hmade, h]
  -- The first `i` items have been copied.
  have htotal := @whileLoop_total _ _ (copyCellsTurn ref heap.length values.length) (values.length + 1)
    (0, heap ++ [items])
    (fun s => s.1 ≤ values.length ∧ ∃ rest, s.2 = heap ++ [values.take s.1 ++ rest] ∧ rest.length = values.length - s.1)
    (fun result => result = heap ++ [values]) (fun s => values.length - s.1) ?_
    ⟨Nat.zero_le _, items, rfl, hlen⟩ (Nat.lt_succ_self _)
  · obtain ⟨result, hrun, rfl⟩ := htotal
    exact hrun
  · rintro ⟨i, heap'⟩ ⟨hi, rest, hheap, hrest⟩
    simp only at hi hheap hrest
    subst hheap
    by_cases hlt : i < values.length
    · obtain ⟨old, rest, rfl⟩ : ∃ old tail, rest = old :: tail := List.exists_cons_of_ne_nil (by
        intro hnil
        rw [hnil, List.length_nil] at hrest
        omega)
      have htake : (values.take i).length = i := List.length_take_of_le hi
      have hroom : i < (values.take i ++ old :: rest).length := by
        rw [List.length_append, htake, List.length_cons]
        omega
      have hset : (values.take i ++ old :: rest).set i values[i] = values.take (i + 1) ++ rest := by
        rw [List.set_append_right _ _ (Nat.le_of_eq htake), htake, Nat.sub_self, List.take_succ_eq_append_getElem hlt,
          List.append_assoc]
        rfl
      have hturn : copyCellsTurn ref heap.length values.length (i, heap ++ [values.take i ++ old :: rest]) =
          .ok (.next (i + 1, heap ++ [values.take (i + 1) ++ rest])) := by
        rw [copyCellsTurn, if_pos hlt, heapGet_ok (hold _) hlt]
        show (heapSet _ _ _ _ >>= _) = _
        rw [newestSet_ok hroom, hset]
        rfl
      refine ⟨_, hturn, ⟨hlt, rest, rfl, ?_⟩, ?_⟩
      · show rest.length = values.length - (i + 1)
        rw [List.length_cons] at hrest
        omega
      · show values.length - (i + 1) < values.length - i
        omega
    · obtain rfl : i = values.length := Nat.le_antisymm hi (Nat.le_of_not_lt hlt)
      have hnil : rest = [] := List.eq_nil_of_length_eq_zero (by omega)
      refine ⟨.done (heap ++ [values.take values.length ++ rest]), ?_, ?_⟩
      · rw [copyCellsTurn, if_neg hlt]
        rfl
      · show heap ++ [values.take values.length ++ rest] = heap ++ [values]
        rw [hnil, List.take_length, List.append_nil]

/-! ## One insertion -/

/-- The items as values. -/
def cells (zs : List Int) : List Val := zs.map .int

theorem heapGet_cells {z : Int} (h : zs[i]? = some z) : heapGet (heap ++ [cells zs]) heap.length i = .ok (.int z) := by
  obtain ⟨hlt, hz⟩ := List.getElem?_eq_some_iff.mp h
  have hroom : i < (cells zs).length := by
    rw [cells, List.length_map]
    exact hlt
  rw [heapGet_ok (newest_getElem heap (cells zs)) hroom, ← hz]
  exact congrArg Except.ok (List.getElem_map Val.int)

theorem heapSet_cells (h : i < zs.length) (z : Int) :
    heapSet (heap ++ [cells zs]) heap.length i (.int z) = .ok (heap ++ [cells (zs.set i z)]) := by
  have hroom : i < (cells zs).length := by
    rw [cells, List.length_map]
    exact h
  rw [newestSet_ok hroom, cells, cells, List.map_set]

/-- The array while an item is held: `hole` is the place that is written next. -/
def opened (heap : ArrayHeap) (low : List Int) (hole : Int) (high rest : List Int) : Int × ArrayHeap :=
  ((low.length : Int) - 1, heap ++ [cells (low ++ hole :: (high ++ rest))])

theorem shiftTurn_start (current hole : Int) (high rest : List Int) :
    shiftTurn heap.length (.int current) (opened heap [] hole high rest) = .ok (.done (opened heap [] hole high rest)) := by
  unfold opened
  rw [shiftTurn, if_neg (by decide)]
  rfl

theorem shiftTurn_last (current hole x : Int) (low high rest : List Int) :
    shiftTurn heap.length (.int current) (opened heap (low ++ [x]) hole high rest) =
      if x > current then .ok (.next (opened heap low x (x :: high) rest))
      else .ok (.done (opened heap (low ++ [x]) hole high rest)) := by
  have hj : ((low ++ [x]).length : Int) - 1 = low.length := by
    rw [List.length_append, List.length_singleton]
    omega
  have hget : heapGet (heap ++ [cells ((low ++ [x]) ++ hole :: (high ++ rest))]) heap.length low.length = .ok (.int x) := by
    apply heapGet_cells
    rw [List.append_assoc, List.getElem?_append_right (Nat.le_refl _), Nat.sub_self]
    rfl
  have hset : heapSet (heap ++ [cells ((low ++ [x]) ++ hole :: (high ++ rest))]) heap.length ((low.length : Int) + 1) (.int x) =
      .ok (heap ++ [cells (low ++ x :: ((x :: high) ++ rest))]) := by
    have hroom : low.length + 1 < ((low ++ [x]) ++ hole :: (high ++ rest)).length := by
      rw [List.length_append, List.length_append, List.length_singleton, List.length_cons]
      omega
    have hwrite : ((low ++ [x]) ++ hole :: (high ++ rest)).set (low.length + 1) x = low ++ x :: ((x :: high) ++ rest) := by
      have hlen : (low ++ [x]).length = low.length + 1 := by
        rw [List.length_append, List.length_singleton]
      rw [← hlen, List.set_append_right _ _ (Nat.le_refl _), Nat.sub_self, List.set_cons_zero, List.append_assoc]
      rfl
    rw [← hwrite]
    exact heapSet_cells hroom x
  unfold opened
  rw [shiftTurn, hj, if_pos (Int.natCast_nonneg _), hget]
  show (if decide (x > current) = true then _ else _) = _
  by_cases hgreater : x > current
  · rw [decide_eq_true hgreater, if_pos rfl, if_pos hgreater]
    show (heapSet _ _ _ _ >>= _) = _
    rw [hset]
    rfl
  · rw [decide_eq_false hgreater, if_neg Bool.false_ne_true, if_neg hgreater]
    rfl

/-- The inner loop finds the place of the item that is held. -/
theorem shift_ok (current : Int) {sortedPart rest : List Int} (hole : Int) (hroom : sortedPart.length < n) :
    ∃ low hole' high, whileLoop (n + 1) (shiftTurn heap.length (.int current)) (opened heap sortedPart hole [] rest) =
      .ok (opened heap low hole' high rest) ∧ low ++ high = sortedPart ∧ (∀ x ∈ high, current < x) ∧
      ∀ x, low.getLast? = some x → x ≤ current := by
  have htotal := @whileLoop_total _ _ (shiftTurn heap.length (.int current)) (n + 1) (opened heap sortedPart hole [] rest)
    (fun s => ∃ low hole' high, s = opened heap low hole' high rest ∧ low ++ high = sortedPart ∧ ∀ x ∈ high, current < x)
    (fun r => ∃ low hole' high, r = opened heap low hole' high rest ∧ low ++ high = sortedPart ∧
      (∀ x ∈ high, current < x) ∧ ∀ x, low.getLast? = some x → x ≤ current)
    (fun s => (s.1 + 1).toNat) ?_ ⟨sortedPart, hole, [], rfl, List.append_nil _, by simp⟩ ?_
  · obtain ⟨r, hrun, low, hole', high, rfl, hwhole, habove, hbelow⟩ := htotal
    exact ⟨low, hole', high, hrun, hwhole, habove, hbelow⟩
  · rintro s ⟨low, hole', high, rfl, hwhole, habove⟩
    rcases List.eq_nil_or_concat low with rfl | ⟨low, x, rfl⟩
    · exact ⟨_, shiftTurn_start current hole' high rest, [], hole', high, rfl, hwhole, habove, by simp⟩
    · rw [List.concat_eq_append] at hwhole ⊢
      rw [shiftTurn_last]
      by_cases hgreater : x > current
      · rw [if_pos hgreater]
        refine ⟨_, rfl, ⟨low, x, x :: high, rfl, ?_, ?_⟩, ?_⟩
        · rw [← hwhole, List.append_assoc]
          rfl
        · intro y hy
          rcases List.mem_cons.mp hy with rfl | hy
          · exact hgreater
          · exact habove y hy
        · show ((low.length : Int) - 1 + 1).toNat < (((low ++ [x]).length : Int) - 1 + 1).toNat
          rw [List.length_append, List.length_singleton]
          omega
      · rw [if_neg hgreater]
        refine ⟨_, rfl, low ++ [x], hole', high, rfl, hwhole, habove, ?_⟩
        intro y hy
        rw [List.getLast?_concat] at hy
        cases hy
        exact Int.not_lt.mp hgreater
  · show ((sortedPart.length : Int) - 1 + 1).toNat < n + 1
    omega

/-! ## The whole sort -/

/-- A place between what is not greater and what is not less keeps a list in order. -/
theorem pairwise_place {α : Type} [LinearOrder α] {low high : List α} {c : α} (hsorted : (low ++ high).Pairwise (· ≤ ·))
    (hbelow : ∀ x, low.getLast? = some x → x ≤ c) (habove : ∀ x ∈ high, c < x) :
    (low ++ c :: high).Pairwise (· ≤ ·) := by
  obtain ⟨hlow, hhigh, hacross⟩ := List.pairwise_append.mp hsorted
  have hle : ∀ x ∈ low, x ≤ c := by
    rcases List.eq_nil_or_concat low with rfl | ⟨front, last, rfl⟩
    · intro x hx
      exact absurd hx List.not_mem_nil
    · intro x hx
      rw [List.concat_eq_append] at hx hlow hbelow
      have hlast : last ≤ c := hbelow last List.getLast?_concat
      rcases List.mem_append.mp hx with hfront | hx
      · exact le_trans ((List.pairwise_append.mp hlow).2.2 x hfront last (List.mem_singleton_self last)) hlast
      · rw [List.mem_singleton.mp hx]
        exact hlast
  refine List.pairwise_append.mpr ⟨hlow, ?_, ?_⟩
  · exact List.pairwise_cons.mpr ⟨fun x hx => le_of_lt (habove x hx), hhigh⟩
  · intro x hx y hy
    rcases List.mem_cons.mp hy with rfl | hy
    · exact hle x hx
    · exact hacross x hx y hy

/-- One turn of the outer loop: the sorted prefix grows by the item behind it. -/
theorem insertTurn_next {prefixed rest : List Int} {current : Int} (hn : n = prefixed.length + (rest.length + 1))
    (hsorted : prefixed.Pairwise (· ≤ ·)) :
    ∃ prefixed' : List Int, insertTurn heap.length n (prefixed.length, heap ++ [cells (prefixed ++ current :: rest)]) =
      .ok (.next (prefixed.length + 1, heap ++ [cells (prefixed' ++ rest)])) ∧
      prefixed'.Perm (prefixed ++ [current]) ∧ prefixed'.Pairwise (· ≤ ·) := by
  have hget : heapGet (heap ++ [cells (prefixed ++ current :: rest)]) heap.length prefixed.length = .ok (.int current) := by
    apply heapGet_cells
    rw [List.getElem?_append_right (Nat.le_refl _), Nat.sub_self]
    rfl
  obtain ⟨low, hole, high, hrun, hwhole, habove, hbelow⟩ :=
    @shift_ok heap n current prefixed rest current (by omega)
  rw [← hwhole] at hsorted
  have hset : heapSet (heap ++ [cells (low ++ hole :: (high ++ rest))]) heap.length ((low.length : Int) - 1 + 1)
      (.int current) = .ok (heap ++ [cells ((low ++ current :: high) ++ rest)]) := by
    have hplace : (low.length : Int) - 1 + 1 = low.length := by omega
    have hwrite : (low ++ hole :: (high ++ rest)).set low.length current = (low ++ current :: high) ++ rest := by
      rw [List.set_append_right _ _ (Nat.le_refl _), Nat.sub_self, List.set_cons_zero, List.append_assoc]
      rfl
    rw [hplace, ← hwrite]
    apply heapSet_cells
    rw [List.length_append, List.length_cons]
    omega
  refine ⟨low ++ current :: high, ?_, ?_, pairwise_place hsorted hbelow habove⟩
  · rw [insertTurn, if_pos (by omega), hget]
    show (whileLoop (n + 1) (shiftTurn heap.length (.int current)) (opened heap prefixed current [] rest) >>= _) = _
    rw [hrun]
    show (heapSet _ _ _ _ >>= _) = _
    rw [hset]
    rfl
  · rw [← hwhole]
    calc (low ++ current :: high).Perm (current :: (low ++ high)) := List.perm_middle
      _ |>.Perm ((low ++ high) ++ [current]) := (List.perm_append_singleton current (low ++ high)).symm

theorem insertLoop_ok (heap : ArrayHeap) (zs : List Int) :
    ∃ ys : List Int, whileLoop (zs.length + 1) (insertTurn heap.length zs.length) (1, heap ++ [cells zs]) =
      .ok (heap ++ [cells ys]) ∧ ys.Perm zs ∧ ys.Pairwise (· ≤ ·) := by
  cases zs with
  | nil => exact ⟨[], rfl, List.Perm.refl _, List.Pairwise.nil⟩
  | cons z zs =>
      -- The first item is in order already.
      have htotal := @whileLoop_total _ _ (insertTurn heap.length (z :: zs).length) ((z :: zs).length + 1)
        (1, heap ++ [cells (z :: zs)])
        (fun s => ∃ front rest : List Int, s = (front.length, heap ++ [cells (front ++ rest)]) ∧
          (front ++ rest).Perm (z :: zs) ∧ front.Pairwise (· ≤ ·))
        (fun r => ∃ ys : List Int, r = heap ++ [cells ys] ∧ ys.Perm (z :: zs) ∧ ys.Pairwise (· ≤ ·))
        (fun s => (z :: zs).length - s.1) ?_ ⟨[z], zs, rfl, List.Perm.refl _, List.pairwise_singleton _ _⟩ ?_
      · obtain ⟨r, hrun, ys, rfl, hperm, hsorted⟩ := htotal
        exact ⟨ys, hrun, hperm, hsorted⟩
      · rintro s ⟨front, rest, rfl, hperm, hsorted⟩
        have hlen : front.length + rest.length = (z :: zs).length := by
          rw [← List.length_append]
          exact hperm.length_eq
        cases rest with
        | nil =>
            rw [List.append_nil] at hperm ⊢
            refine ⟨.done (heap ++ [cells front]), ?_, front, rfl, hperm, hsorted⟩
            rw [insertTurn, if_neg (by rw [List.length_nil] at hlen; omega)]
            rfl
        | cons current rest =>
            obtain ⟨front', hturn, hperm', hsorted'⟩ :=
              @insertTurn_next heap (z :: zs).length front rest current hlen.symm hsorted
            have hlen' : front'.length = front.length + 1 := by
              rw [hperm'.length_eq, List.length_append, List.length_singleton]
            refine ⟨_, hturn, ⟨front', rest, ?_, ?_, hsorted'⟩, ?_⟩
            · rw [hlen']
            · have hmove : (front' ++ rest).Perm ((front ++ [current]) ++ rest) := List.Perm.append_right rest hperm'
              rw [List.append_assoc] at hmove
              exact hmove.trans hperm
            · show (z :: zs).length - (front.length + 1) < (z :: zs).length - front.length
              rw [List.length_cons] at hlen
              omega
      · show (z :: zs).length - 1 < (z :: zs).length + 1
        omega

/-- What `sorted` and `median` promise, on the heap that comes back: one more array, and nothing else has changed. -/
theorem sortedCopy_ok (h : heap[ref]? = some (cells zs)) (hlimit : zs.length ≤ arrayLimit) :
    ∃ ys : List Int, sortedCopy heap ref = .ok (heap.length, heap ++ [cells ys]) ∧ ys.Perm zs ∧ ys.Pairwise (· ≤ ·) := by
  have hlen : (cells zs).length = zs.length := List.length_map _
  obtain ⟨items, hrange, hitems⟩ := range_ok hlimit
  have hcopy := @copyCells_ok heap items ref (cells zs) h (by rw [hitems, hlen])
  obtain ⟨ys, hsort, hperm, hsorted⟩ := insertLoop_ok heap zs
  refine ⟨ys, ?_, hperm, hsorted⟩
  rw [hlen] at hcopy
  rw [sortedCopy, heapLen, arrayOf_ok h]
  show (heapRange heap (cells zs).length >>= _) = _
  rw [hlen, heapRange, hrange]
  show (whileLoop (zs.length + 1) (copyCellsTurn ref heap.length zs.length) (0, heap ++ [items]) >>= _) = _
  rw [hcopy]
  show (whileLoop (zs.length + 1) (insertTurn heap.length zs.length) (1, heap ++ [cells zs]) >>= _) = _
  rw [hsort]
  rfl

/-! ## The median -/

/-- The loop of `median` comes back with the item at `target`. -/
theorem medianLoop_ok {target : Nat} {y : Int} (hy : zs[target]? = some y) :
    ∃ lower, whileLoop (zs.length + 1) (medianTurn (heap ++ [cells zs]) heap.length zs.length target)
      (0, .int 0, .int 0) = .ok (lower, .int y) := by
  have htarget : target < zs.length := (List.getElem?_eq_some_iff.mp hy).1
  have hget : ∀ {i : Nat}, i < zs.length → ∃ v, heapGet (heap ++ [cells zs]) heap.length i = .ok v := fun hi =>
    ⟨_, heapGet_cells (List.getElem?_eq_getElem hi)⟩
  have htotal := @whileLoop_total _ _ (medianTurn (heap ++ [cells zs]) heap.length zs.length target) (zs.length + 1)
    (0, .int 0, .int 0) (fun s => s.1 ≤ zs.length ∧ (target < s.1 → s.2.2 = .int y)) (fun r => r.2 = .int y)
    (fun s => zs.length - s.1) ?_ ⟨Nat.zero_le _, fun hlt => absurd hlt (Nat.not_lt_zero _)⟩ (Nat.lt_succ_self _)
  · obtain ⟨⟨lower, upper⟩, hrun, hupper⟩ := htotal
    simp only at hupper
    rw [hupper] at hrun
    exact ⟨lower, hrun⟩
  · rintro ⟨i, lower, upper⟩ ⟨hi, hseen⟩
    simp only at hi hseen
    by_cases hlt : i < zs.length
    · obtain ⟨v, hv⟩ := hget hlt
      have hlower : ∃ lower', itemAt (heap ++ [cells zs]) heap.length i ((target : Int) - 1) lower = .ok lower' := by
        unfold itemAt
        split
        · exact ⟨v, hv⟩
        · exact ⟨lower, rfl⟩
      obtain ⟨lower', hlower'⟩ := hlower
      have hupper : ∃ upper', itemAt (heap ++ [cells zs]) heap.length i target upper = .ok upper' ∧
          (target < i + 1 → upper' = .int y) := by
        unfold itemAt
        by_cases heq : i = target
        · rw [if_pos (congrArg _ heq), heq]
          exact ⟨.int y, heapGet_cells hy, fun _ => rfl⟩
        · rw [if_neg (by omega)]
          exact ⟨upper, rfl, fun hpassed => hseen (by omega)⟩
      obtain ⟨upper', hupper', hnext⟩ := hupper
      refine ⟨.next (i + 1, lower', upper'), ?_, ⟨hlt, hnext⟩, ?_⟩
      · rw [medianTurn, if_pos hlt, hlower']
        show (itemAt (heap ++ [cells zs]) heap.length i target upper >>= _) = _
        rw [hupper']
        rfl
      · show zs.length - (i + 1) < zs.length - i
        omega
    · refine ⟨.done (lower, upper), ?_, hseen (by omega)⟩
      rw [medianTurn, if_neg hlt]
      rfl

/-- `sorted` returns a new array with the items in order and leaves every other array alone; `median` of an odd number of
    items is the one in the middle of that order. -/
theorem sorted_exact (h : heap[ref]? = some (cells zs)) (hlimit : zs.length ≤ arrayLimit) :
    ∃ ys : List Int, sorted heap ref = .ok (heap.length, heap ++ [cells ys]) ∧ ys.Perm zs ∧ ys.Pairwise (· ≤ ·) ∧
      (zs.length % 2 = 1 → ∃ y, ys[zs.length / 2]? = some y ∧
        median heap ref = .ok (.item (.int y), heap ++ [cells ys])) := by
  obtain ⟨ys, hsort, hperm, hsorted⟩ := sortedCopy_ok h hlimit
  have hlen : ys.length = zs.length := hperm.length_eq
  refine ⟨ys, hsort, hperm, hsorted, fun hodd => ?_⟩
  obtain ⟨y, hmiddle⟩ : ∃ y, ys[zs.length / 2]? = some y := ⟨_, List.getElem?_eq_getElem (by omega)⟩
  refine ⟨y, hmiddle, ?_⟩
  obtain ⟨lower, hloop⟩ := @medianLoop_ok heap ys (zs.length / 2) y hmiddle
  rw [hlen] at hloop
  have hcount : heapLen heap ref = .ok zs.length := by
    rw [heapLen, arrayOf_ok h]
    show Except.ok (cells zs).length = Except.ok zs.length
    rw [cells, List.length_map]
  rw [median, hcount]
  show (if zs.length = 0 then _ else _) = _
  rw [if_neg (by omega), hsort]
  show (whileLoop (zs.length + 1) (medianTurn (heap ++ [cells ys]) heap.length zs.length (zs.length / 2))
    (0, .int 0, .int 0) >>= _) = _
  rw [hloop]
  show (if zs.length % 2 = 1 then _ else _) = _
  rw [if_pos hodd]
  rfl

theorem sorted_exact_three : ∃ ys : List Int, sorted [[.int 7], [.int 3, .int 1, .int 2]] 1 =
    .ok (2, [[.int 7], [.int 3, .int 1, .int 2]] ++ [cells ys]) ∧ ys.Perm [3, 1, 2] ∧ ys.Pairwise (· ≤ ·) ∧
      ([3, 1, 2].length % 2 = 1 → ∃ y, ys[[3, 1, 2].length / 2]? = some y ∧
        median [[.int 7], [.int 3, .int 1, .int 2]] 1 =
          .ok (.item (.int y), [[.int 7], [.int 3, .int 1, .int 2]] ++ [cells ys])) :=
  sorted_exact rfl (by decide)

end Vnt.StdLib
