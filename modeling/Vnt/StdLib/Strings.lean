import Vnt.Lib.Pieces
import Vnt.StdLib.Arrays

/-!
# `StdLib.Strings` — searching in strings (`string.vnt`)

`index_of`, `contains`, `count`, `replace`, `last_index_of` and `split`. All of them compare the needle with one place of the
text in the same inner loop; a place is a number that only goes up, but for `last_index_of`.
-/

namespace Vnt.StdLib

open Lib (Turn)
open Net (Bytes)

/-- `while i < needle_size { if value[start + i] != needle[i] { matched = false; break } … }` -/
def matchTurn (value needle : Bytes) (start : Int) (i : Nat) : Hosted (Turn Nat Bool) :=
  if i < needle.length then do
    let c ← stringGet value (start + i)
    let d ← stringGet needle i
    if c ≠ d then pure (.done false) else pure (.next (i + 1))
  else pure (.done true)

def matched (value needle : Bytes) (start : Int) : Hosted Bool :=
  whileLoop (needle.length + 1) (matchTurn value needle start) 0

/-- `while start <= value_size - needle_size { … }` of `index_of` and of `contains`: what they return at a match, and without
    one. -/
def searchTurn {ρ : Type} (value needle : Bytes) (found : Int → ρ) (missing : ρ) (start : Nat) : Hosted (Turn Nat ρ) :=
  if (start : Int) ≤ value.length - needle.length then do
    if ← matched value needle start then pure (.done (found start)) else pure (.next (start + 1))
  else pure (.done missing)

def indexOf (value needle : Bytes) : Hosted Int :=
  if needle.length = 0 then pure 0
  else if needle.length > value.length then pure (-1)
  else whileLoop (value.length + 2) (searchTurn value needle id (-1)) 0

def contains (value needle : Bytes) : Hosted Bool :=
  if needle.length = 0 then pure true
  else if needle.length > value.length then pure false
  else whileLoop (value.length + 2) (searchTurn value needle (fun _ => true) false) 0

/-- `while start <= value_size - needle_size { … }` of `count`. -/
def countTurn (value needle : Bytes) : Nat × Nat → Hosted (Turn (Nat × Nat) Nat)
  | (found, start) =>
      if (start : Int) ≤ value.length - needle.length then do
        if ← matched value needle start then pure (.next (found + 1, start + needle.length))
        else pure (.next (found, start + 1))
      else pure (.done found)

def count (value needle : Bytes) : Hosted Nat :=
  if needle.length = 0 ∨ needle.length > value.length then pure 0
  else whileLoop (value.length + 2) (countTurn value needle) (0, 0)

/-- `matched = false; if position + needle_size <= value_size { … }` -/
def matchedInside (value needle : Bytes) (position : Nat) : Hosted Bool :=
  if position + needle.length ≤ value.length then matched value needle position else pure false

/-- `while position < value_size { … }` of `replace`. -/
def replaceTurn (value needle replacement : Bytes) : Bytes × Nat → Hosted (Turn (Bytes × Nat) Bytes)
  | (result, position) =>
      if position < value.length then do
        if ← matchedInside value needle position then pure (.next (result ++ replacement, position + needle.length))
        else do
          let c ← stringGet value position
          pure (.next (result ++ [c], position + 1))
      else pure (.done result)

def replace (value needle replacement : Bytes) : Hosted Bytes :=
  if needle.length = 0 then pure value
  else whileLoop (value.length + 1) (replaceTurn value needle replacement) ([], 0)

/-- `while start >= 0 { … }` of `last_index_of`. -/
def lastIndexOfTurn (value needle : Bytes) (start : Int) : Hosted (Turn Int Int) :=
  if start ≥ 0 then do
    if ← matched value needle start then pure (.done start) else pure (.next (start - 1))
  else pure (.done (-1))

def lastIndexOf (value needle : Bytes) : Hosted Int :=
  if needle.length = 0 then pure value.length
  else if needle.length > value.length then pure (-1)
  else whileLoop (value.length + 2) (lastIndexOfTurn value needle) (value.length - needle.length)

/-- `while i < end { part = part + value[i]; … }` -/
def sliceTurn (value : Bytes) (stop : Nat) : Bytes × Nat → Hosted (Turn (Bytes × Nat) Bytes)
  | (part, i) =>
      if i < stop then do
        let c ← stringGet value i
        pure (.next (part ++ [c], i + 1))
      else pure (.done part)

/-- The characters from `start` to `stop`, one after another. -/
def slice (value : Bytes) (start stop : Nat) : Hosted Bytes :=
  whileLoop (stop + 1) (sliceTurn value stop) ([], start)

/-- `next_parts = range(part_count + 1)`, the copies of the parts, and `next_parts[part_count] = part`. -/
def appendPart (parts : List Val) (part : Val) : Hosted (List Val) := do
  let next ← range (parts.length + 1)
  let next ← copyItems parts 0 next
  arraySet next parts.length part

/-- `while position <= value_size - delimiter_size { … }` of `split`, and the last part. -/
def splitTurn (value delimiter : Bytes) : List Val × Nat × Nat → Hosted (Turn (List Val × Nat × Nat) (List Val))
  | (parts, partStart, position) =>
      if (position : Int) ≤ value.length - delimiter.length then do
        if ← matched value delimiter position then do
          let part ← slice value partStart position
          let parts ← appendPart parts (.str part)
          pure (.next (parts, position + delimiter.length, position + delimiter.length))
        else pure (.next (parts, partStart, position + 1))
      else do
        let tail ← slice value partStart value.length
        let parts ← appendPart parts (.str tail)
        pure (.done parts)

def split (value delimiter : Bytes) : Hosted (List Val) :=
  if delimiter.length = 0 then pure [.str value]
  else whileLoop (value.length + 2) (splitTurn value delimiter) ([], 0, 0)

/-!
## The search functions agree

Every function finds the occurrences of the needle that `pieces` cuts the text at. What each loop keeps is a function of its
state: what has been done already, and what `pieces` makes of the rest of the text.
-/

open Lib (Turn OccursAt pieces glue)

variable {v n r : Bytes} {p : Nat}

/-! ## One place -/

/-- The inner loop, at a place with enough text behind it. -/
theorem matched_ok (h : p + n.length ≤ v.length) : matched v n p = .ok (decide (OccursAt n v p)) := by
  have hstart : decide (OccursAt n v p) = decide (n.drop 0 <+: v.drop (p + 0)) := rfl
  rw [hstart]
  refine @whileLoop_eq _ _ (matchTurn v n p) (n.length + 1) 0 (fun i => i ≤ n.length)
    (fun i => decide (n.drop i <+: v.drop (p + i))) (fun i => n.length - i) ?_ (Nat.zero_le _) (Nat.lt_succ_self _)
  intro i hi
  by_cases hlt : i < n.length
  · have hplace : p + i < v.length := by omega
    have hcut : n.drop i <+: v.drop (p + i) ↔ n[i] = v[p + i] ∧ n.drop (i + 1) <+: v.drop (p + (i + 1)) := by
      rw [List.drop_eq_getElem_cons hlt, List.drop_eq_getElem_cons hplace, List.cons_prefix_cons]
      exact Iff.rfl
    have hturn : matchTurn v n p i = if v[p + i] ≠ n[i] then .ok (.done false) else .ok (.next (i + 1)) := by
      have hget : stringGet v ((p : Int) + i) = .ok v[p + i] := stringGet_ok hplace
      rw [matchTurn, if_pos hlt, hget, stringGet_ok hlt]
      rfl
    rw [hturn]
    by_cases hsame : v[p + i] = n[i]
    · rw [if_neg (not_not.mpr hsame)]
      refine ⟨_, rfl, ⟨hlt, ?_⟩, ?_⟩
      · exact (decide_eq_decide.mpr (hcut.trans (and_iff_right hsame.symm))).symm
      · show n.length - (i + 1) < n.length - i
        omega
    · rw [if_pos hsame]
      refine ⟨_, rfl, ?_⟩
      exact (decide_eq_false fun hprefix => hsame (hcut.mp hprefix).1.symm).symm
  · have hall : i = n.length := Nat.le_antisymm hi (Nat.le_of_not_lt hlt)
    refine ⟨.done true, ?_, ?_⟩
    · rw [matchTurn, if_neg hlt]
      rfl
    · rw [hall, List.drop_length]
      exact (decide_eq_true (List.nil_prefix)).symm

theorem not_occurs_of_short (hn : n ≠ []) (h : v.length < p + n.length) : ¬ OccursAt n v p := by
  intro hoccurs
  have hle := hoccurs.le hn
  omega

/-! ## The first and the last occurrence -/

/-- `p` is the first place where `n` occurs. -/
def FirstAt (n v : Bytes) (p : Nat) : Prop := OccursAt n v p ∧ ∀ q, OccursAt n v q → p ≤ q

/-- `p` is the last place where `n` occurs. -/
def LastAt (n v : Bytes) (p : Nat) : Prop := OccursAt n v p ∧ ∀ q, OccursAt n v q → q ≤ p

/-- What a search comes back with: the value for the place that `At` describes, or the value for none. -/
def Finds {ρ : Type} (At : Nat → Prop) (n v : Bytes) (found : Int → ρ) (missing result : ρ) : Prop :=
  (∃ p : Nat, At p ∧ result = found p) ∨ ((∀ q, ¬ OccursAt n v q) ∧ result = missing)

/-- The loop of `index_of` and `contains`. -/
theorem search_ok {ρ : Type} (hn : n ≠ []) (found : Int → ρ) (missing : ρ) :
    ∃ result, whileLoop (v.length + 2) (searchTurn v n found missing) 0 = .ok result ∧
      Finds (FirstAt n v) n v found missing result := by
  have hpos := List.length_pos_iff.mpr hn
  -- Nothing has been passed over.
  apply @whileLoop_total _ _ (searchTurn v n found missing) (v.length + 2) 0 (fun start => ∀ q, OccursAt n v q → start ≤ q)
    _ (fun start => v.length + 1 - start) ?_ (fun q _ => Nat.zero_le q) (Nat.lt_succ_self _)
  intro start hpassed
  by_cases hle : (start : Int) ≤ v.length - n.length
  · have hturn : searchTurn v n found missing start = if OccursAt n v start then .ok (.done (found start))
        else .ok (.next (start + 1)) := by
      rw [searchTurn, if_pos hle, matched_ok (by omega)]
      show (if decide (OccursAt n v start) = true then _ else _) = _
      simp only [decide_eq_true_eq]
      rfl
    rw [hturn]
    by_cases hoccurs : OccursAt n v start
    · rw [if_pos hoccurs]
      exact ⟨_, rfl, Or.inl ⟨start, ⟨hoccurs, hpassed⟩, rfl⟩⟩
    · rw [if_neg hoccurs]
      refine ⟨_, rfl, ?_, ?_⟩
      · intro q hq
        rcases Nat.eq_or_lt_of_le (hpassed q hq) with rfl | hlt
        · exact absurd hq hoccurs
        · exact hlt
      · show v.length + 1 - (start + 1) < v.length + 1 - start
        omega
  · refine ⟨.done missing, ?_, Or.inr ⟨?_, rfl⟩⟩
    · rw [searchTurn, if_neg hle]
      rfl
    · intro q hq
      have hstart := hpassed q hq
      have hroom := hq.le hn
      omega

theorem not_occurs_of_long (hn : n ≠ []) (h : n.length > v.length) (q : Nat) : ¬ OccursAt n v q :=
  not_occurs_of_short hn (by omega)

theorem indexOf_ok (hn : n ≠ []) (v : Bytes) : ∃ i, indexOf v n = .ok i ∧ Finds (FirstAt n v) n v id (-1) i := by
  have hpos := List.length_pos_iff.mpr hn
  rw [indexOf, if_neg (by omega)]
  by_cases hlong : n.length > v.length
  · rw [if_pos hlong]
    exact ⟨-1, rfl, Or.inr ⟨not_occurs_of_long hn hlong, rfl⟩⟩
  · rw [if_neg hlong]
    exact search_ok hn id (-1)

theorem contains_ok (hn : n ≠ []) (v : Bytes) : ∃ b, contains v n = .ok b ∧ (b = true ↔ n <:+: v) := by
  have hpos := List.length_pos_iff.mpr hn
  rw [contains, if_neg (by omega), Lib.infix_iff_occurs]
  by_cases hlong : n.length > v.length
  · rw [if_pos hlong]
    refine ⟨false, rfl, iff_of_false Bool.false_ne_true ?_⟩
    rintro ⟨q, hq⟩
    exact not_occurs_of_long hn hlong q hq
  · rw [if_neg hlong]
    obtain ⟨b, hrun, ⟨p, hfirst, rfl⟩ | ⟨hnone, rfl⟩⟩ := @search_ok v n Bool hn (fun _ => true) false
    · exact ⟨true, hrun, iff_of_true rfl ⟨p, hfirst.1⟩⟩
    · exact ⟨false, hrun, iff_of_false Bool.false_ne_true fun ⟨q, hq⟩ => hnone q hq⟩

theorem lastIndexOf_ok (hn : n ≠ []) (v : Bytes) :
    ∃ i, lastIndexOf v n = .ok i ∧ Finds (LastAt n v) n v id (-1) i := by
  have hpos := List.length_pos_iff.mpr hn
  rw [lastIndexOf, if_neg (by omega)]
  by_cases hlong : n.length > v.length
  · rw [if_pos hlong]
    exact ⟨-1, rfl, Or.inr ⟨not_occurs_of_long hn hlong, rfl⟩⟩
  rw [if_neg hlong]
  refine @whileLoop_total _ _ (lastIndexOfTurn v n) (v.length + 2) _ (fun start => start ≤ v.length - n.length ∧
    ∀ q, OccursAt n v q → (q : Int) ≤ start) _ (fun start => (start + 1).toNat) ?_ ⟨Int.le_refl _, ?_⟩ ?_
  · rintro start ⟨hroom, hpassed⟩
    by_cases hnonneg : start ≥ 0
    · obtain ⟨p, rfl⟩ := Int.eq_ofNat_of_zero_le hnonneg
      have hturn : lastIndexOfTurn v n p = if OccursAt n v p then .ok (.done (p : Int)) else .ok (.next ((p : Int) - 1)) := by
        rw [lastIndexOfTurn, if_pos hnonneg, matched_ok (by omega)]
        show (if decide (OccursAt n v p) = true then _ else _) = _
        simp only [decide_eq_true_eq]
        rfl
      rw [hturn]
      by_cases hoccurs : OccursAt n v p
      · rw [if_pos hoccurs]
        exact ⟨_, rfl, Or.inl ⟨p, ⟨hoccurs, fun q hq => Int.ofNat_le.mp (hpassed q hq)⟩, rfl⟩⟩
      · rw [if_neg hoccurs]
        refine ⟨_, rfl, ⟨by omega, ?_⟩, ?_⟩
        · intro q hq
          have hle := hpassed q hq
          have hne : q ≠ p := fun h => hoccurs (h ▸ hq)
          omega
        · show ((p : Int) - 1 + 1).toNat < ((p : Int) + 1).toNat
          omega
    · refine ⟨.done (-1), ?_, Or.inr ⟨?_, rfl⟩⟩
      · rw [lastIndexOfTurn, if_neg hnonneg]
        rfl
      · intro q hq
        have hle := hpassed q hq
        omega
  · intro q hq
    have hle := hq.le hn
    omega
  · show ((v.length : Int) - n.length + 1).toNat < v.length + 2
    omega

/-! ## Cutting the rest of the text -/

/-- At an occurrence. -/
theorem pieces_at (hn : n ≠ []) (h : OccursAt n v p) :
    pieces n (v.drop p) = [] :: pieces n (v.drop (p + n.length)) := by
  rw [Lib.pieces_match hn h, List.drop_drop]

/-- At another place. -/
theorem pieces_after (hp : p < v.length) (h : ¬ OccursAt n v p) :
    pieces n (v.drop p) = glue [v[p]] (pieces n (v.drop (p + 1))) := by
  have hnot : ¬ n <+: v[p] :: v.drop (p + 1) := by
    rw [← List.drop_eq_getElem_cons hp]
    exact h
  rw [List.drop_eq_getElem_cons hp, Lib.pieces_cons hnot]

theorem count_ok (hn : n ≠ []) (v : Bytes) : count v n = .ok ((pieces n v).length - 1) := by
  have hpos := List.length_pos_iff.mpr hn
  by_cases hlong : n.length > v.length
  · rw [count, if_pos (Or.inr hlong), Lib.pieces_of_short hn hlong]
    rfl
  rw [count, if_neg (by omega)]
  have hrun := @whileLoop_eq _ _ (countTurn v n) (v.length + 2) (0, 0) (fun _ => True)
    (fun s => s.1 + ((pieces n (v.drop s.2)).length - 1)) (fun s => v.length + 1 - s.2) ?_ trivial (Nat.lt_succ_self _)
  · rw [hrun]
    show Except.ok (0 + ((pieces n (v.drop 0)).length - 1)) = _
    rw [Nat.zero_add, List.drop_zero]
  · rintro ⟨found, start⟩ -
    by_cases hle : (start : Int) ≤ v.length - n.length
    · have hturn : countTurn v n (found, start) = if OccursAt n v start then .ok (.next (found + 1, start + n.length))
          else .ok (.next (found, start + 1)) := by
        rw [countTurn, if_pos hle, matched_ok (by omega)]
        show (if decide (OccursAt n v start) = true then _ else _) = _
        simp only [decide_eq_true_eq]
        rfl
      have hrest : ∀ q, 0 < (pieces n (v.drop q)).length := fun q => List.length_pos_iff.mpr (Lib.pieces_ne_nil hn)
      rw [hturn]
      by_cases hoccurs : OccursAt n v start
      · rw [if_pos hoccurs]
        refine ⟨_, rfl, ⟨trivial, ?_⟩, ?_⟩
        · have hnext := hrest (start + n.length)
          show found + 1 + ((pieces n (v.drop (start + n.length))).length - 1) =
            found + ((pieces n (v.drop start)).length - 1)
          rw [pieces_at hn hoccurs, List.length_cons]
          omega
        · show v.length + 1 - (start + n.length) < v.length + 1 - start
          omega
      · rw [if_neg hoccurs]
        refine ⟨_, rfl, ⟨trivial, ?_⟩, ?_⟩
        · show found + ((pieces n (v.drop (start + 1))).length - 1) = found + ((pieces n (v.drop start)).length - 1)
          rw [pieces_after (by omega) hoccurs, Lib.length_glue (Lib.pieces_ne_nil hn)]
        · show v.length + 1 - (start + 1) < v.length + 1 - start
          omega
    · refine ⟨.done found, ?_, ?_⟩
      · rw [countTurn, if_neg hle]
        rfl
      · have hshort : (v.drop start).length < n.length := by
          rw [List.length_drop]
          omega
        show found = found + ((pieces n (v.drop start)).length - 1)
        rw [Lib.pieces_of_short hn hshort]
        rfl

theorem matchedInside_ok (hn : n ≠ []) : matchedInside v n p = .ok (decide (OccursAt n v p)) := by
  unfold matchedInside
  by_cases hroom : p + n.length ≤ v.length
  · rw [if_pos hroom, matched_ok hroom]
  · rw [if_neg hroom, decide_eq_false (not_occurs_of_short hn (by omega))]
    rfl

theorem replace_ok (hn : n ≠ []) (v r : Bytes) : replace v n r = .ok (r.intercalate (pieces n v)) := by
  have hpos := List.length_pos_iff.mpr hn
  rw [replace, if_neg (by omega)]
  have hrun := @whileLoop_eq _ _ (replaceTurn v n r) (v.length + 1) ([], 0) (fun s => s.2 ≤ v.length)
    (fun s => s.1 ++ r.intercalate (pieces n (v.drop s.2))) (fun s => v.length - s.2) ?_ (Nat.zero_le _) (Nat.lt_succ_self _)
  · exact hrun
  · rintro ⟨result, position⟩ hposition
    simp only at hposition
    by_cases hlt : position < v.length
    · have hturn : replaceTurn v n r (result, position) = if OccursAt n v position
          then .ok (.next (result ++ r, position + n.length)) else .ok (.next (result ++ [v[position]], position + 1)) := by
        rw [replaceTurn, if_pos hlt, matchedInside_ok hn]
        show (if decide (OccursAt n v position) = true then _ else _) = _
        simp only [decide_eq_true_eq, stringGet_ok hlt]
        rfl
      rw [hturn]
      by_cases hoccurs : OccursAt n v position
      · rw [if_pos hoccurs]
        refine ⟨_, rfl, ⟨hoccurs.le hn, ?_⟩, ?_⟩
        · show result ++ r ++ r.intercalate (pieces n (v.drop (position + n.length))) =
            result ++ r.intercalate (pieces n (v.drop position))
          rw [pieces_at hn hoccurs, List.intercalate_cons_of_ne_nil (Lib.pieces_ne_nil hn), List.nil_append,
            List.append_assoc]
        · show v.length - (position + n.length) < v.length - position
          omega
      · rw [if_neg hoccurs]
        refine ⟨_, rfl, ⟨hlt, ?_⟩, ?_⟩
        · show result ++ [v[position]] ++ r.intercalate (pieces n (v.drop (position + 1))) =
            result ++ r.intercalate (pieces n (v.drop position))
          rw [pieces_after hlt hoccurs, Lib.intercalate_glue r (Lib.pieces_ne_nil hn), List.append_assoc]
        · show v.length - (position + 1) < v.length - position
          omega
    · have hall : position = v.length := Nat.le_antisymm hposition (Nat.le_of_not_lt hlt)
      refine ⟨.done result, ?_, ?_⟩
      · rw [replaceTurn, if_neg hlt]
        rfl
      · show result = result ++ r.intercalate (pieces n (v.drop position))
        rw [hall, List.drop_length, Lib.pieces_nil hn, List.intercalate_singleton, List.append_nil]

/-! ## `split` -/

theorem slice_ok {start stop : Nat} (hstart : start ≤ stop) (hstop : stop ≤ v.length) :
    slice v start stop = .ok ((v.take stop).drop start) := by
  refine @whileLoop_eq _ _ (sliceTurn v stop) (stop + 1) ([], start) (fun s => s.2 ≤ stop)
    (fun s => s.1 ++ (v.take stop).drop s.2) (fun s => stop - s.2) ?_ hstart (Nat.lt_succ_of_le (Nat.sub_le _ _))
  rintro ⟨part, i⟩ hi
  simp only at hi
  have hlen : (v.take stop).length = stop := List.length_take_of_le hstop
  by_cases hlt : i < stop
  · have hplace : i < v.length := Nat.lt_of_lt_of_le hlt hstop
    refine ⟨.next (part ++ [v[i]], i + 1), ?_, ⟨hlt, ?_⟩, ?_⟩
    · rw [sliceTurn, if_pos hlt, stringGet_ok hplace]
      rfl
    · show part ++ [v[i]] ++ (v.take stop).drop (i + 1) = part ++ (v.take stop).drop i
      have hi' : i < (v.take stop).length := by omega
      rw [List.drop_eq_getElem_cons hi', List.getElem_take, List.append_assoc]
      rfl
    · show stop - (i + 1) < stop - i
      omega
  · refine ⟨.done part, ?_, ?_⟩
    · rw [sliceTurn, if_neg hlt]
      rfl
    · show part = part ++ (v.take stop).drop i
      rw [List.drop_of_length_le (by omega), List.append_nil]

theorem appendPart_ok {parts : List Val} {part : Val} (h : parts.length < arrayLimit) :
    appendPart parts part = .ok (parts ++ [part]) := by
  obtain ⟨next, hrange, hlen⟩ := @range_ok (parts.length + 1) h
  have hcopy := @copyItems_ok parts next 0 (by omega)
  rw [List.take_zero, List.nil_append, Nat.zero_add] at hcopy
  have hlen' : (parts ++ next.drop parts.length).length = parts.length + 1 := by
    rw [List.length_append, List.length_drop]
    omega
  have hset : arraySet (parts ++ next.drop parts.length) parts.length part =
      .ok ((parts ++ next.drop parts.length).set parts.length part) := arraySet_ok (by omega) part
  have hlast : ∃ w, next.drop parts.length = [w] := by
    have hone : (next.drop parts.length).length = 1 := by
      rw [List.length_drop]
      omega
    exact List.length_eq_one_iff.mp hone
  obtain ⟨w, hw⟩ := hlast
  rw [appendPart, show ((parts.length : Int) + 1) = ((parts.length + 1 : Nat) : Int) from rfl, hrange]
  show (copyItems parts 0 next >>= fun next => arraySet next parts.length part) = _
  rw [hcopy]
  show arraySet (parts ++ next.drop parts.length) parts.length part = _
  rw [hset, hw, List.set_append_right _ _ (Nat.le_refl _), Nat.sub_self]
  rfl

theorem appendPart_full {parts : List Val} {part : Val} (h : parts.length = arrayLimit) :
    appendPart parts part = fail "array capacity limit exceeded." := by
  have hrange := @range_full (parts.length + 1) (by omega) (by rw [h]; decide)
  rw [appendPart, show ((parts.length : Int) + 1) = ((parts.length + 1 : Nat) : Int) from rfl, hrange]
  rfl

/-- What `split` will have made from a state: the parts it has, and those that the rest of the text is cut into. -/
def allParts (v n : Bytes) : List Val × Nat × Nat → List Val
  | (parts, partStart, position) => parts ++ (glue ((v.take position).drop partStart) (pieces n (v.drop position))).map .str

/-- The loop is between two occurrences. -/
structure Between (v : Bytes) (s : List Val × Nat × Nat) : Prop where
  start : s.2.1 ≤ s.2.2
  inside : s.2.2 ≤ v.length

theorem glue_nil {α : Type} {ps : List (List α)} (h : ps ≠ []) : glue [] ps = ps := by
  cases ps with
  | nil => exact absurd rfl h
  | cons p ps => rfl

theorem length_allParts (hn : n ≠ []) (parts : List Val) (partStart position : Nat) :
    (allParts v n (parts, partStart, position)).length = parts.length + (pieces n (v.drop position)).length := by
  rw [allParts, List.length_append, List.length_map, Lib.length_glue (Lib.pieces_ne_nil hn)]

/-- One turn: at an occurrence a part is appended, elsewhere the part gets longer. -/
theorem splitTurn_cases (hn : n ≠ []) {s : List Val × Nat × Nat} (hbetween : Between v s) (hlimit : s.1.length ≤ arrayLimit) :
    (∃ s', splitTurn v n s = .ok (.next s') ∧ (Between v s' ∧ s'.1.length ≤ arrayLimit) ∧ allParts v n s' = allParts v n s ∧
      v.length + 1 - s'.2.2 < v.length + 1 - s.2.2) ∨
    (splitTurn v n s = .ok (.done (allParts v n s)) ∧ (allParts v n s).length ≤ arrayLimit) ∨
    (splitTurn v n s = fail "array capacity limit exceeded." ∧ arrayLimit < (allParts v n s).length) := by
  have hpos := List.length_pos_iff.mpr hn
  obtain ⟨parts, partStart, position⟩ := s
  obtain ⟨hstart, hinside⟩ := hbetween
  simp only at hstart hinside hlimit
  have hpieces := List.length_pos_iff.mpr (@Lib.pieces_ne_nil _ _ n (v.drop position) hn)
  by_cases hle : (position : Int) ≤ v.length - n.length
  · have hplace : position < v.length := by omega
    by_cases hoccurs : OccursAt n v position
    · have hturn : splitTurn v n (parts, partStart, position) = appendPart parts (.str ((v.take position).drop partStart)) >>=
          fun parts => .ok (.next (parts, position + n.length, position + n.length)) := by
        rw [splitTurn, if_pos hle, matched_ok (by omega), decide_eq_true hoccurs]
        show (slice v partStart position >>= _) = _
        rw [slice_ok hstart hinside]
        rfl
      rcases Nat.eq_or_lt_of_le hlimit with hfull | hroom
      · refine Or.inr (Or.inr ⟨?_, ?_⟩)
        · rw [hturn, appendPart_full hfull]
          rfl
        · rw [length_allParts hn]
          omega
      · refine Or.inl ⟨(parts ++ [.str ((v.take position).drop partStart)], position + n.length, position + n.length), ?_,
          ⟨⟨Nat.le_refl _, hoccurs.le hn⟩, ?_⟩, ?_, ?_⟩
        · rw [hturn, appendPart_ok hroom]
          rfl
        · show (parts ++ [_]).length ≤ arrayLimit
          rw [List.length_append]
          exact hroom
        · -- The next part begins behind the occurrence.
          have hempty : (v.take (position + n.length)).drop (position + n.length) = [] :=
            List.drop_of_length_le (List.length_take_le _ _)
          show parts ++ [_] ++ (glue ((v.take (position + n.length)).drop (position + n.length))
            (pieces n (v.drop (position + n.length)))).map .str = parts ++ (glue _ (pieces n (v.drop position))).map .str
          rw [hempty, glue_nil (Lib.pieces_ne_nil hn), pieces_at hn hoccurs, List.append_assoc]
          show _ = parts ++ (((v.take position).drop partStart ++ []) :: _).map .str
          rw [List.append_nil]
          rfl
        · show v.length + 1 - (position + n.length) < v.length + 1 - position
          omega
    · refine Or.inl ⟨(parts, partStart, position + 1), ?_, ⟨⟨Nat.le_succ_of_le hstart, hplace⟩, hlimit⟩, ?_, ?_⟩
      · rw [splitTurn, if_pos hle, matched_ok (by omega), decide_eq_false hoccurs]
        rfl
      · have hlonger : (v.take (position + 1)).drop partStart = (v.take position).drop partStart ++ [v[position]] := by
          rw [List.take_succ_eq_append_getElem hplace, List.drop_append_of_le_length]
          rw [List.length_take_of_le hinside]
          exact hstart
        show parts ++ (glue ((v.take (position + 1)).drop partStart) (pieces n (v.drop (position + 1)))).map .str =
          parts ++ (glue _ (pieces n (v.drop position))).map .str
        rw [pieces_after hplace hoccurs, Lib.glue_glue, hlonger]
      · show v.length + 1 - (position + 1) < v.length + 1 - position
        omega
  · -- The rest is too short for another occurrence.
    have hshort : pieces n (v.drop position) = [v.drop position] := by
      apply Lib.pieces_of_short hn
      rw [List.length_drop]
      omega
    have htail : (v.take v.length).drop partStart = (v.take position).drop partStart ++ v.drop position := by
      rw [List.take_length, ← List.drop_append_of_le_length (by rw [List.length_take_of_le hinside]; exact hstart),
        List.take_append_drop]
    have hall : allParts v n (parts, partStart, position) = parts ++ [.str ((v.take v.length).drop partStart)] := by
      rw [allParts, hshort, htail]
      rfl
    have hturn : splitTurn v n (parts, partStart, position) = appendPart parts (.str ((v.take v.length).drop partStart)) >>=
        fun parts => .ok (.done parts) := by
      rw [splitTurn, if_neg hle, slice_ok (Nat.le_trans hstart hinside) (Nat.le_refl _)]
      rfl
    rcases Nat.eq_or_lt_of_le hlimit with hfull | hroom
    · refine Or.inr (Or.inr ⟨?_, ?_⟩)
      · rw [hturn, appendPart_full hfull]
        rfl
      · rw [hall, List.length_append]
        exact Nat.lt_succ_of_le (Nat.le_of_eq hfull.symm)
    · refine Or.inr (Or.inl ⟨?_, ?_⟩)
      · rw [hturn, appendPart_ok hroom, hall]
        rfl
      · rw [hall, List.length_append]
        exact hroom

theorem allParts_start (hn : n ≠ []) : allParts v n ([], 0, 0) = (pieces n v).map .str := by
  rw [allParts, List.nil_append, List.take_zero, List.drop_zero, List.drop_zero, glue_nil (Lib.pieces_ne_nil hn)]

/-- `split` returns the pieces, if an array has room for them. -/
theorem split_ok (hn : n ≠ []) (h : (pieces n v).length ≤ arrayLimit) : split v n = .ok ((pieces n v).map .str) := by
  have hpos := List.length_pos_iff.mpr hn
  rw [split, if_neg (by omega), ← allParts_start hn]
  refine @whileLoop_eq _ _ (splitTurn v n) (v.length + 2) ([], 0, 0)
    (fun s => (Between v s ∧ s.1.length ≤ arrayLimit) ∧ (allParts v n s).length ≤ arrayLimit) (allParts v n)
    (fun s => v.length + 1 - s.2.2) ?_ ⟨⟨⟨Nat.le_refl 0, Nat.zero_le _⟩, Nat.zero_le _⟩, ?_⟩ (Nat.lt_succ_self _)
  · rintro s ⟨⟨hbetween, hlimit⟩, hfits⟩
    rcases splitTurn_cases hn hbetween hlimit with ⟨s', hturn, hkept, hsame, hless⟩ | ⟨hturn, -⟩ | ⟨-, hmany⟩
    · refine ⟨_, hturn, ⟨⟨hkept, ?_⟩, hsame⟩, hless⟩
      rw [hsame]
      exact hfits
    · exact ⟨_, hturn, rfl⟩
    · exact absurd hfits (Nat.not_le_of_lt hmany)
  · rw [allParts_start hn, List.length_map]
    exact h

/-- More pieces do not fit in an array. -/
theorem split_full (hn : n ≠ []) (h : arrayLimit < (pieces n v).length) :
    split v n = fail "array capacity limit exceeded." := by
  have hpos := List.length_pos_iff.mpr hn
  rw [split, if_neg (by omega)]
  refine @Lib.loop_fails _ _ _ _ _ (fun s => (Between v s ∧ s.1.length ≤ arrayLimit) ∧
    arrayLimit < (allParts v n s).length) (fun s => v.length + 1 - s.2.2) _ ?_ (v.length + 2) ([], 0, 0) ⟨⟨⟨Nat.le_refl 0, Nat.zero_le _⟩, Nat.zero_le _⟩, ?_⟩
    (Nat.lt_succ_self _)
  · rintro s ⟨⟨hbetween, hlimit⟩, hmany⟩
    rcases splitTurn_cases hn hbetween hlimit with ⟨s', hturn, hkept, hsame, hless⟩ | ⟨-, hfits⟩ | ⟨hturn, -⟩
    · refine Or.inr ⟨s', hturn, ⟨hkept, ?_⟩, hless⟩
      rw [hsame]
      exact hmany
    · exact absurd hfits (Nat.not_le_of_lt hmany)
    · exact Or.inl hturn
  · rw [allParts_start hn, List.length_map]
    exact h

/-! ## The functions together -/

theorem count_eq (hn : n ≠ []) (v : Bytes) : ∃ k, count v n = .ok k ∧ (pieces n v).length = k + 1 := by
  have hpos := List.length_pos_iff.mpr (@Lib.pieces_ne_nil _ _ n v hn)
  exact ⟨_, count_ok hn v, by omega⟩

theorem length_pieces_replicate (c : UInt8) (k : Nat) : (pieces [c] (List.replicate k c)).length = k + 1 := by
  induction k with
  | zero =>
      rw [List.replicate_zero, Lib.pieces_nil (List.cons_ne_nil c [])]
      rfl
  | succ k ih =>
      have hmatch : pieces [c] (c :: List.replicate k c) = [] :: pieces [c] (List.replicate k c) :=
        Lib.pieces_match (List.cons_ne_nil c []) ⟨List.replicate k c, rfl⟩
      rw [List.replicate_succ, hmatch, List.length_cons, ih]

end Vnt.StdLib
