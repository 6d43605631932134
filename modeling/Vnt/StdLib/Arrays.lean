import Vnt.Net.Text
import Vnt.Runtime.Range
import Vnt.StdLib.Core

/-!
# `StdLib.Arrays` — strings and arrays (`array.vnt`)

Indexing as the runtime checks it, and the functions of `array.vnt` that the other modules call. An array literal, `range` and
the loops that overwrite what `range` returns are how the library makes arrays; one of more than 2^30 items cannot be made.
A string of one character is its byte.
-/

namespace Vnt.StdLib

open Lib (Turn)
open Net (Bytes)
open Vnt.Runtime (vntRange)

/-- A value: an integer, a string or an array. -/
inductive Val where
  | int (z : Int)
  | str (s : Bytes)
  | arr (items : List Val)

/-- The items of the largest array. -/
def arrayLimit : Nat := 2 ^ 30

/-- `vnt_string_get`. -/
def stringGet (s : Bytes) : Int → Hosted UInt8
  | .ofNat i =>
      match s[i]? with
      | some c => .ok c
      | none => fail "string index out of bounds."
  | .negSucc _ => fail "string index out of bounds."

/-- `vnt_array_get`. -/
def arrayGet (items : List Val) : Int → Hosted Val
  | .ofNat i =>
      match items[i]? with
      | some v => .ok v
      | none => fail "array index out of bounds."
  | .negSucc _ => fail "array index out of bounds."

/-- `vnt_array_set`. -/
def arraySet (items : List Val) (index : Int) (value : Val) : Hosted (List Val) :=
  match index with
  | .ofNat i => if i < items.length then .ok (items.set i value) else fail "array index out of bounds."
  | .negSucc _ => fail "array index out of bounds."

/-- `range(size)`. -/
def range (size : Int) : Hosted (List Val) :=
  match vntRange (.int (Int64.ofInt size)) .other .other 1 with
  | .ok a => .ok (a.items.map fun x => .int x.toInt)
  | .error .capacityLimit => fail "array capacity limit exceeded."
  | .error _ => .error .stuck

/-- `value_to_concat_string`. -/
def concatString : Val → Option Bytes
  | .int z => some (Net.ascii (toString z))
  | .str s => some s
  | .arr _ => none

/-- `vnt_add`. -/
def vntAddValues : Val → Val → Hosted Val
  | .int x, .int y => do
      let z ← vntAdd x y
      pure (.int z)
  | .arr _, .arr _ | .arr _, .int _ | .int _, .arr _ => fail "arithmetic requires numbers."
  | v, w =>
      match concatString v, concatString w with
      | some a, some b => pure (.str (a ++ b))
      | _, _ => fail "string concatenation supports strings, numbers, and booleans."

/-- `while i < size { result[offset + i] = items[i]; … }` -/
def copyTurn (items : List Val) (offset : Nat) : Nat × List Val → Hosted (Turn (Nat × List Val) (List Val))
  | (i, result) =>
      if i < items.length then do
        let item ← arrayGet items i
        let result ← arraySet result (offset + i) item
        pure (.next (i + 1, result))
      else pure (.done result)

def copyItems (items : List Val) (offset : Nat) (result : List Val) : Hosted (List Val) :=
  whileLoop (items.length + 1) (copyTurn items offset) (0, result)

def concat (left right : List Val) : Hosted (List Val) := do
  let result ← range (left.length + right.length)
  let result ← copyItems left 0 result
  copyItems right left.length result

/-- `while i < size { result = result + separator + values[i]; … }` -/
def joinTurn (values : List Val) (separator : Val) : Nat × Val → Hosted (Turn (Nat × Val) Val)
  | (i, result) =>
      if i < values.length then do
        let result ← vntAddValues result separator
        let value ← arrayGet values i
        let result ← vntAddValues result value
        pure (.next (i + 1, result))
      else pure (.done result)

def join (values : List Val) (separator : Val) : Hosted Val :=
  if values.length = 0 then pure (.str [])
  else do
    let first ← arrayGet values 0
    whileLoop values.length (joinTurn values separator) (1, first)

/-! ## Indexing -/

variable {s : Bytes} {items result : List Val} {i n : Nat}

theorem stringGet_ok (h : i < s.length) : stringGet s i = .ok s[i] := by
  show (match s[i]? with | some c => _ | none => _) = _
  rw [List.getElem?_eq_getElem h]

theorem stringGet_last {s : Bytes} (hne : s ≠ []) : stringGet s ((s.length : Int) - 1) = .ok (s.getLast hne) := by
  have hpos := List.length_pos_of_ne_nil hne
  have hindex : (s.length : Int) - 1 = ((s.length - 1 : ℕ) : Int) := by omega
  rw [hindex, stringGet_ok (Nat.sub_lt hpos (by decide)), List.getLast_eq_getElem]

theorem arrayGet_ok (h : i < items.length) : arrayGet items i = .ok items[i] := by
  show (match items[i]? with | some c => _ | none => _) = _
  rw [List.getElem?_eq_getElem h]

theorem arraySet_ok (h : i < items.length) (v : Val) : arraySet items i v = .ok (items.set i v) := if_pos h

/-! ## `range` -/

theorem toInt_ofNat (h : n < 2 ^ 63) : (Int64.ofInt n).toInt = n :=
  Int64.toInt_ofInt_of_le (by have hmin := Runtime.minValue_toInt; omega) (by omega)

theorem count_from_zero (n : Nat) : Lib.Progression.count 0 n 1 = n := by
  unfold Lib.Progression.count
  rw [if_pos (by decide)]
  omega

/-- `range(n)` makes an array of `n` items. -/
theorem range_ok (h : n ≤ arrayLimit) : ∃ items, range n = .ok items ∧ items.length = n := by
  unfold arrayLimit at h
  have hvalue := toInt_ofNat (show n < 2 ^ 63 by omega)
  have hcount : Lib.Progression.count (0 : Int64).toInt (Int64.ofInt n).toInt (1 : Int64).toInt = n := by
    rw [hvalue]
    exact count_from_zero n
  obtain ⟨a, hrun, hitems, -⟩ := @Runtime.vntRange_exact 0 (Int64.ofInt n) 1 (.int (Int64.ofInt n)) .other .other 1 rfl
    (by decide) (by omega)
  refine ⟨a.items.map fun x => .int x.toInt, ?_, ?_⟩
  · unfold range
    rw [hrun]
  · have hlen := congrArg List.length hitems
    rw [hcount] at hlen
    rw [List.length_map] at hlen ⊢
    rw [hlen, Lib.Progression.terms, List.length_map, List.length_range]

/-- Larger arrays cannot be made. -/
theorem range_full (h : arrayLimit < n) (hn : n < 2 ^ 63) : range n = fail "array capacity limit exceeded." := by
  have hcount : Lib.Progression.count (0 : Int64).toInt (Int64.ofInt n).toInt (1 : Int64).toInt = n := by
    rw [toInt_ofNat hn]
    exact count_from_zero n
  have hrun := @Runtime.vntRange_full 0 (Int64.ofInt n) 1 (.int (Int64.ofInt n)) .other .other 1 rfl (by decide)
    (by unfold arrayLimit at h; omega)
  unfold range
  rw [hrun]

/-! ## Copying -/

/-- One turn. -/
theorem copyTurn_next {offset : Nat} (hi : i < items.length) (hroom : offset + items.length ≤ result.length) :
    copyTurn items offset (i, result) = .ok (.next (i + 1, result.set (offset + i) items[i])) := by
  have hset : arraySet result (offset + i) items[i] = .ok (result.set (offset + i) items[i]) :=
    arraySet_ok (by omega) items[i]
  rw [copyTurn, if_pos hi, arrayGet_ok hi]
  show (arraySet result (offset + i) items[i] >>= _) = _
  rw [hset]
  rfl

/-- The items come to stand at their offset, and everything else stays. -/
theorem copyItems_ok {offset : Nat} (h : offset + items.length ≤ result.length) :
    copyItems items offset result = .ok (result.take offset ++ items ++ result.drop (offset + items.length)) := by
  have hrun := @whileLoop_eq _ _ (copyTurn items offset) (items.length + 1) (0, result)
    (fun s => s.1 ≤ items.length ∧ offset + items.length ≤ s.2.length)
    (fun s => s.2.take (offset + s.1) ++ items.drop s.1 ++ s.2.drop (offset + items.length))
    (fun s => items.length - s.1) ?_ ⟨Nat.zero_le _, h⟩ (Nat.lt_succ_self _)
  · exact hrun
  · rintro ⟨i, r⟩ ⟨hi, hroom⟩
    simp only at hi hroom
    by_cases hlt : i < items.length
    · refine ⟨_, copyTurn_next hlt hroom, ⟨⟨hlt, ?_⟩, ?_⟩, ?_⟩
      · show offset + items.length ≤ (r.set (offset + i) items[i]).length
        rw [List.length_set]
        exact hroom
      · -- The item moves from what is to be copied to what has been copied.
        show (r.set (offset + i) items[i]).take (offset + (i + 1)) ++ items.drop (i + 1) ++
          (r.set (offset + i) items[i]).drop (offset + items.length) =
          r.take (offset + i) ++ items.drop i ++ r.drop (offset + items.length)
        have hitem : (r.set (offset + i) items[i])[offset + i]? = some items[i] :=
          List.getElem?_set_self (by omega)
        rw [List.drop_set_of_lt (by omega), List.drop_eq_getElem_cons hlt, ← Nat.add_assoc, List.take_add_one, hitem,
          List.take_set_of_le (Nat.le_refl _)]
        simp only [Option.toList, List.append_assoc, List.singleton_append]
      · show items.length - (i + 1) < items.length - i
        omega
    · obtain rfl : i = items.length := Nat.le_antisymm hi (Nat.le_of_not_lt hlt)
      refine ⟨.done r, ?_, ?_⟩
      · rw [copyTurn, if_neg hlt]
        rfl
      · show r = r.take (offset + items.length) ++ items.drop items.length ++ r.drop (offset + items.length)
        rw [List.drop_length, List.append_nil, List.take_append_drop]

theorem concat_ok {left right : List Val} (h : left.length + right.length ≤ arrayLimit) :
    concat left right = .ok (left ++ right) := by
  obtain ⟨result, hrange, hlen⟩ := range_ok h
  have hleft : copyItems left 0 result = .ok (left ++ result.drop left.length) := by
    have hcopy := @copyItems_ok left result 0 (by omega)
    rw [List.take_zero, List.nil_append, Nat.zero_add] at hcopy
    exact hcopy
  have hrest : (left ++ result.drop left.length).length = left.length + right.length := by
    rw [List.length_append, List.length_drop]
    omega
  have hright := @copyItems_ok right (left ++ result.drop left.length) left.length (by omega)
  rw [← hrest, List.drop_length, List.append_nil, List.take_left] at hright
  rw [concat, show ((left.length : Int) + (right.length : Int)) = ((left.length + right.length : Nat) : Int) from rfl, hrange]
  show (copyItems left 0 result >>= fun result => copyItems right left.length result) = _
  rw [hleft]
  exact hright

/-! ## Joining -/

theorem intercalate_snoc {α : Type} (r p : List α) {ps : List (List α)} (h : ps ≠ []) :
    r.intercalate (ps ++ [p]) = r.intercalate ps ++ r ++ p := by
  induction ps with
  | nil => exact absurd rfl h
  | cons q ps ih =>
      cases ps with
      | nil =>
          show r.intercalate [q, p] = r.intercalate [q] ++ r ++ p
          rw [List.intercalate_cons_cons, List.intercalate_singleton, List.intercalate_singleton]
      | cons q' ps =>
          show r.intercalate (q :: q' :: (ps ++ [p])) = _
          rw [List.intercalate_cons_cons, List.intercalate_cons_cons]
          have hrest : r.intercalate (q' :: (ps ++ [p])) = _ := ih (List.cons_ne_nil q' ps)
          rw [hrest]
          simp only [List.append_assoc]

/-- One turn, on strings. -/
theorem joinTurn_next {parts : List Bytes} {r w : Bytes} (hi : i < parts.length) :
    joinTurn (parts.map .str) (.str r) (i, .str w) = .ok (.next (i + 1, .str (w ++ r ++ parts[i]))) := by
  have hlen : i < (parts.map Val.str).length := by
    rw [List.length_map]
    exact hi
  have hget : arrayGet (parts.map .str) i = .ok (.str parts[i]) := by
    rw [arrayGet_ok hlen, List.getElem_map]
  rw [joinTurn, if_pos hlen]
  show (arrayGet (parts.map .str) i >>= _) = _
  rw [hget]
  rfl

/-- `join` on strings. -/
theorem join_ok (parts : List Bytes) (r : Bytes) : join (parts.map .str) (.str r) = .ok (.str (r.intercalate parts)) := by
  cases parts with
  | nil => rfl
  | cons p parts =>
      have hfirst : arrayGet ((p :: parts).map .str) 0 = .ok (.str p) := rfl
      have hlen : ((p :: parts).map Val.str).length = (p :: parts).length := List.length_map _
      rw [join, if_neg (by rw [hlen]; exact Nat.succ_ne_zero _), hfirst]
      show whileLoop ((p :: parts).map Val.str).length (joinTurn ((p :: parts).map .str) (.str r)) (1, .str p) = _
      -- The first `i` strings are joined.
      have htotal := @whileLoop_total _ _ (joinTurn ((p :: parts).map .str) (.str r))
        ((p :: parts).map Val.str).length (1, .str p)
        (fun s => 1 ≤ s.1 ∧ s.1 ≤ (p :: parts).length ∧ s.2 = .str (r.intercalate ((p :: parts).take s.1)))
        (fun v => v = .str (r.intercalate (p :: parts))) (fun s => (p :: parts).length - s.1) ?_
        ⟨Nat.le_refl 1, Nat.le_add_left 1 _, congrArg Val.str List.intercalate_singleton.symm⟩
        (by rw [hlen]; exact Nat.lt_succ_self _)
      · obtain ⟨v, hrun, rfl⟩ := htotal
        exact hrun
      · rintro ⟨i, w⟩ ⟨hpos, hi, hw⟩
        simp only at hpos hi hw
        subst hw
        by_cases hlt : i < (p :: parts).length
        · refine ⟨_, joinTurn_next hlt, ⟨Nat.le_succ_of_le hpos, hlt, ?_⟩, ?_⟩
          · have hne : (p :: parts).take i ≠ [] := by
              intro hnil
              have hzero := congrArg List.length hnil
              rw [List.length_take, List.length_nil] at hzero
              omega
            show Val.str _ = Val.str _
            rw [List.take_succ_eq_append_getElem hlt, intercalate_snoc r _ hne]
          · show (p :: parts).length - (i + 1) < (p :: parts).length - i
            omega
        · refine ⟨.done (.str (r.intercalate ((p :: parts).take i))), ?_, ?_⟩
          · rw [joinTurn, if_neg (by rw [hlen]; exact hlt)]
            rfl
          · have hall : i = (p :: parts).length := Nat.le_antisymm hi (Nat.le_of_not_lt hlt)
            show Val.str _ = Val.str _
            rw [hall, List.take_length]

end Vnt.StdLib
