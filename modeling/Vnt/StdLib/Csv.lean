import Vnt.StdLib.Arrays

/-!
# `StdLib.Csv` — comma-separated values (`csv.vnt`)

`parse` is a state machine on the characters of a text, `stringify` three loops inside one another: over the rows, over
the fields of a row, over the characters of a field that has to be quoted.
-/

namespace Vnt.StdLib

open Lib (Turn)
open Net (Bytes lf cr space tab crlf)

def comma : UInt8 := 44
def quote : UInt8 := 34

/-! ## `parse` -/

/-- The variables of `parse`. -/
structure CsvState where
  rows : List Val
  row : List Val
  field : Bytes
  inQuotes : Bool
  afterQuote : Bool
  i : Nat

/-- `i + 1 < size && text[i + 1] == c` -/
def follows (text : Bytes) (i : Nat) (c : UInt8) : Hosted Bool :=
  if i + 1 < text.length then do
    let d ← stringGet text (i + 1)
    pure (d = c)
  else pure false

/-- `row = array.concat(row, [field])` -/
def endField (s : CsvState) : Hosted (List Val) := concat s.row [.str s.field]

/-- `row = array.concat(row, [field])` and `rows = array.concat(rows, [row])` -/
def endRow (s : CsvState) : Hosted (List Val) := do
  let row ← endField s
  concat s.rows [.arr row]

/-- A comma or the end of a line behind a field, or another character. -/
def separatorTurn (text : Bytes) (s : CsvState) (ch : UInt8) (other : Turn CsvState (List Val)) :
    Hosted (Turn CsvState (List Val)) :=
  if ch = comma then do
    let row ← endField s
    pure (.next { s with row, field := [], afterQuote := false, i := s.i + 1 })
  else if ch = lf then do
    let rows ← endRow s
    pure (.next { s with rows, row := [], field := [], afterQuote := false, i := s.i + 1 })
  else if ch = cr then do
    let rows ← endRow s
    let pair ← follows text s.i lf
    pure (.next { s with rows, row := [], field := [], afterQuote := false, i := if pair then s.i + 2 else s.i + 1 })
  else pure other

/-- `while i < size { … }` of `parse`, and what comes after it. -/
def parseTurn (text : Bytes) (s : CsvState) : Hosted (Turn CsvState (List Val)) :=
  if s.i < text.length then do
    let ch ← stringGet text s.i
    if s.inQuotes then
      if ch = quote then do
        if ← follows text s.i quote then pure (.next { s with field := s.field ++ [quote], i := s.i + 2 })
        else pure (.next { s with inQuotes := false, afterQuote := true, i := s.i + 1 })
      else pure (.next { s with field := s.field ++ [ch], i := s.i + 1 })
    else if s.afterQuote then separatorTurn text s ch (.done [])
    else if ch = quote then
      if s.field.length ≠ 0 then pure (.done []) else pure (.next { s with inQuotes := true, i := s.i + 1 })
    else separatorTurn text s ch (.next { s with field := s.field ++ [ch], i := s.i + 1 })
  else if s.inQuotes then pure (.done [])
  else do
    let last ← stringGet text (text.length - 1)
    if last ≠ lf ∧ last ≠ cr then do
      let rows ← endRow s
      pure (.done rows)
    else pure (.done s.rows)

def parse (text : Bytes) : Hosted (List Val) :=
  if text.length = 0 then pure []
  else whileLoop (text.length + 1) (parseTurn text) ⟨[], [], [], false, false, 0⟩

/-! ## `stringify` -/

/-- `while i < needle_size { if value[start + i] != needle[i] { matched = false } … }` -/
def placeTurn (value needle : Bytes) (start : Nat) : Nat × Bool → Hosted (Turn (Nat × Bool) Bool)
  | (i, found) =>
      if i < needle.length then do
        let c ← stringGet value (start + i)
        let d ← stringGet needle i
        pure (.next (i + 1, if c ≠ d then false else found))
      else pure (.done found)

/-- `while start <= value_size - needle_size { … }` of `string_contains`. -/
def stringContainsTurn (value needle : Bytes) (start : Nat) : Hosted (Turn Nat Bool) :=
  if (start : Int) ≤ value.length - needle.length then do
    if ← whileLoop (needle.length + 1) (placeTurn value needle start) (0, true) then pure (.done true)
    else pure (.next (start + 1))
  else pure (.done false)

def stringContains (value needle : Bytes) : Hosted Bool :=
  if needle.length = 0 then pure true
  else if needle.length > value.length then pure false
  else whileLoop (value.length + 2) (stringContainsTurn value needle) 0

/-- `string_contains(value, …) || …` -/
def containsAny (value : Bytes) : List UInt8 → Hosted Bool
  | [] => pure false
  | c :: cs => do
      if ← stringContains value [c] then pure true else containsAny value cs

/-- `len(value) > 0 && (value[0] == " " || …)` -/
def blankEnd (value : Bytes) : Hosted Bool :=
  if value.length > 0 then do
    let first ← stringGet value 0
    if first = space ∨ first = tab then pure true
    else do
      let last ← stringGet value (value.length - 1)
      pure (last = space ∨ last = tab)
  else pure false

/-- `needs_quotes` -/
def needsQuotes (value : Bytes) : Hosted Bool := do
  let special ← containsAny value [comma, quote, lf, cr]
  let blank ← blankEnd value
  pure (value.length = 0 ∨ special ∨ blank)

/-- `while i < len(value) { … }`, the characters between quotes. -/
def escapeTurn (value : Bytes) : Nat × Bytes → Hosted (Turn (Nat × Bytes) Bytes)
  | (i, output) =>
      if i < value.length then do
        let c ← stringGet value i
        if c = quote then pure (.next (i + 1, output ++ [quote, quote])) else pure (.next (i + 1, output ++ [c]))
      else pure (.done output)

/-- What indexing finds is an array, as the caller has promised. -/
def asArray : Val → Hosted (List Val)
  | .arr items => .ok items
  | _ => .error .stuck

def asString : Val → Hosted Bytes
  | .str s => .ok s
  | _ => .error .stuck

/-- `while column_index < len(row) { … }` -/
def fieldTurn (row : List Val) : Nat × Bytes → Hosted (Turn (Nat × Bytes) Bytes)
  | (column, output) =>
      if column < row.length then do
        let output := if column > 0 then output ++ [comma] else output
        let item ← arrayGet row column
        let value ← asString item
        if ← needsQuotes value then do
          let output ← whileLoop (value.length + 1) (escapeTurn value) (0, output ++ [quote])
          pure (.next (column + 1, output ++ [quote]))
        else pure (.next (column + 1, output ++ value))
      else pure (.done output)

/-- `while row_index < len(rows) { … }` -/
def rowTurn (rows : List Val) : Nat × Bytes → Hosted (Turn (Nat × Bytes) Bytes)
  | (index, output) =>
      if index < rows.length then do
        let item ← arrayGet rows index
        let row ← asArray item
        let output ← whileLoop (row.length + 1) (fieldTurn row) (0, output)
        pure (.next (index + 1, if index + 1 < rows.length then output ++ crlf else output))
      else pure (.done output)

def stringify (rows : List Val) : Hosted Bytes := whileLoop (rows.length + 1) (rowTurn rows) (0, [])

example : stringify [.arr [.str (Net.ascii "a,b"), .str []], .arr [.str (Net.ascii "c")]] =
    .ok (Net.ascii "\"a,b\",\"\"\r\nc") := by rfl

/-!
## What `stringify` writes

The text of a table: fields between commas, rows between line ends. A field is written as it is or between quotes; one that
is written as it is has no character that `parse` does not take for a part of it.
-/

variable {value f : Bytes} {i : Nat}

/-! ## `needs_quotes` -/

theorem placeTurn_next {c : UInt8} {start : Nat} {found : Bool} (h : start < value.length) :
    placeTurn value [c] start (0, found) = .ok (.next (1, if value[start] ≠ c then false else found)) := by
  have hget : stringGet value ((start : Int) + (0 : Nat)) = .ok value[start] := stringGet_ok h
  rw [placeTurn, if_pos (show 0 < [c].length from Nat.zero_lt_one), hget]
  rfl

/-- `string_contains` with one character. -/
theorem stringContains_ok (value : Bytes) (c : UInt8) : stringContains value [c] = .ok (decide (c ∈ value)) := by
  rw [stringContains, if_neg (show [c].length ≠ 0 from Nat.succ_ne_zero 0)]
  by_cases hempty : [c].length > value.length
  · have hnil : value = [] := List.eq_nil_of_length_eq_zero (by rw [List.length_singleton] at hempty; omega)
    rw [if_pos hempty, hnil]
    rfl
  rw [if_neg hempty, show decide (c ∈ value) = decide (c ∈ value.drop 0) from rfl]
  refine @whileLoop_eq _ _ (stringContainsTurn value [c]) (value.length + 2) 0 (fun _ => True)
    (fun start => decide (c ∈ value.drop start)) (fun start => value.length + 1 - start) ?_ trivial (Nat.lt_succ_self _)
  rintro start -
  rw [List.length_singleton] at hempty
  by_cases hle : (start : Int) ≤ value.length - [c].length
  · have hplace : start < value.length := by
      rw [List.length_singleton] at hle
      omega
    have hinner : whileLoop ([c].length + 1) (placeTurn value [c] start) (0, true) = .ok (decide (value[start] = c)) := by
      show Lib.loop _ _ (1 + 1) (0, true) = _
      rw [Lib.loop_next (placeTurn_next hplace)]
      have hdone : placeTurn value [c] start (1, if value[start] ≠ c then false else true) =
          .ok (.done (if value[start] ≠ c then false else true)) := rfl
      have hdone' := @Lib.loop_done Stop _ _ .outOfClock _ 0 _ _ hdone
      rw [hdone']
      by_cases hsame : value[start] = c
      · rw [if_neg (not_not.mpr hsame), decide_eq_true hsame]
      · rw [if_pos hsame, decide_eq_false hsame]
    have hcut : c ∈ value.drop start ↔ value[start] = c ∨ c ∈ value.drop (start + 1) := by
      rw [List.drop_eq_getElem_cons hplace, List.mem_cons, eq_comm]
    have hturn : stringContainsTurn value [c] start = if value[start] = c then .ok (.done true)
        else .ok (.next (start + 1)) := by
      rw [stringContainsTurn, if_pos hle, hinner]
      show (if decide (value[start] = c) = true then _ else _) = _
      simp only [decide_eq_true_eq]
      rfl
    rw [hturn]
    by_cases hsame : value[start] = c
    · rw [if_pos hsame]
      exact ⟨_, rfl, (decide_eq_true (hcut.mpr (Or.inl hsame))).symm⟩
    · rw [if_neg hsame]
      refine ⟨_, rfl, ⟨trivial, ?_⟩, ?_⟩
      · exact decide_eq_decide.mpr (hcut.trans (or_iff_right hsame)).symm
      · show value.length + 1 - (start + 1) < value.length + 1 - start
        omega
  · refine ⟨.done false, ?_, ?_⟩
    · rw [stringContainsTurn, if_neg hle]
      rfl
    · have hend : value.drop start = [] := by
        rw [List.length_singleton] at hle
        exact List.drop_of_length_le (by omega)
      rw [hend]
      rfl

theorem containsAny_ok (value cs : Bytes) : containsAny value cs = .ok (decide (∃ c ∈ cs, c ∈ value)) := by
  induction cs with
  | nil => exact congrArg Except.ok (decide_eq_false (by simp)).symm
  | cons c cs ih =>
      rw [containsAny, stringContains_ok]
      show (if decide (c ∈ value) = true then _ else _) = _
      by_cases hc : c ∈ value
      · rw [if_pos (decide_eq_true hc), decide_eq_true ⟨c, List.mem_cons_self, hc⟩]
        rfl
      · rw [if_neg (by rw [decide_eq_false hc]; exact Bool.false_ne_true), ih]
        congr 1
        rw [decide_eq_decide]
        simp [hc]

theorem blankEnd_returns (value : Bytes) : ∃ b, blankEnd value = .ok b := by
  unfold blankEnd
  by_cases hempty : value.length > 0
  · have hfirst : stringGet value 0 = .ok value[0] := stringGet_ok hempty
    have hlast : stringGet value ((value.length : Int) - 1) = .ok value[value.length - 1] := by
      have hplace : value.length - 1 < value.length := Nat.sub_lt hempty Nat.zero_lt_one
      rw [show (value.length : Int) - 1 = ((value.length - 1 : Nat) : Int) by omega]
      exact stringGet_ok hplace
    rw [if_pos hempty, hfirst]
    show ∃ b, (if value[0] = space ∨ value[0] = tab then _ else _) = _
    by_cases hblank : value[0] = space ∨ value[0] = tab
    · rw [if_pos hblank]
      exact ⟨true, rfl⟩
    · rw [if_neg hblank, hlast]
      exact ⟨_, rfl⟩
  · rw [if_neg hempty]
    exact ⟨false, rfl⟩

/-- A field that is written as it is. -/
structure Plain (f : Bytes) : Prop where
  ne : f ≠ []
  chars : ∀ c ∈ f, c ≠ comma ∧ c ≠ quote ∧ c ≠ lf ∧ c ≠ cr

theorem needsQuotes_cases (f : Bytes) : needsQuotes f = .ok true ∨ (needsQuotes f = .ok false ∧ Plain f) := by
  obtain ⟨blank, hblank⟩ := blankEnd_returns f
  have hrun : needsQuotes f =
      .ok (decide (f.length = 0 ∨ decide (∃ c ∈ [comma, quote, lf, cr], c ∈ f) = true ∨ blank = true)) := by
    rw [needsQuotes, containsAny_ok, hblank]
    rfl
  by_cases hneeds : f.length = 0 ∨ decide (∃ c ∈ [comma, quote, lf, cr], c ∈ f) = true ∨ blank = true
  · rw [hrun, decide_eq_true hneeds]
    exact Or.inl rfl
  · rw [hrun, decide_eq_false hneeds]
    rw [not_or, not_or] at hneeds
    refine Or.inr ⟨rfl, fun hnil => hneeds.1 (by rw [hnil]; rfl), ?_⟩
    intro c hc
    have hnone : ∀ d ∈ [comma, quote, lf, cr], d ≠ c := by
      rintro d hd rfl
      exact hneeds.2.1 (decide_eq_true ⟨d, hd, hc⟩)
    refine ⟨(hnone comma ?_).symm, (hnone quote ?_).symm, (hnone lf ?_).symm, (hnone cr ?_).symm⟩ <;> decide

/-! ## The text -/

/-- A character between quotes. -/
def escaped (c : UInt8) : Bytes := if c = quote then [quote, quote] else [c]

def quotedText (f : Bytes) : Bytes := quote :: f.flatMap escaped ++ [quote]

def fieldText (f : Bytes) : Bytes :=
  match needsQuotes f with
  | .ok false => f
  | _ => quotedText f

def rowText (row : List Bytes) : Bytes := [comma].intercalate (row.map fieldText)

def csvText (rows : List (List Bytes)) : Bytes := crlf.intercalate (rows.map rowText)

/-- A row of strings as a value. -/
def rowValue (row : List Bytes) : Val := .arr (row.map .str)

/-! ## The loops -/

theorem escape_ok (value output : Bytes) :
    whileLoop (value.length + 1) (escapeTurn value) (0, output) = .ok (output ++ value.flatMap escaped) := by
  refine @whileLoop_eq _ _ (escapeTurn value) (value.length + 1) (0, output) (fun s => s.1 ≤ value.length)
    (fun s => s.2 ++ (value.drop s.1).flatMap escaped) (fun s => value.length - s.1) ?_ (Nat.zero_le _)
    (Nat.lt_succ_self _)
  rintro ⟨i, out⟩ hi
  simp only at hi
  by_cases hlt : i < value.length
  · have hturn : escapeTurn value (i, out) = .ok (.next (i + 1, out ++ escaped value[i])) := by
      rw [escapeTurn, if_pos hlt, stringGet_ok hlt]
      show (if value[i] = quote then _ else _) = _
      unfold escaped
      by_cases hquote : value[i] = quote
      · rw [if_pos hquote, if_pos hquote]
        rfl
      · rw [if_neg hquote, if_neg hquote]
        rfl
    refine ⟨_, hturn, ⟨hlt, ?_⟩, ?_⟩
    · show out ++ escaped value[i] ++ (value.drop (i + 1)).flatMap escaped = out ++ (value.drop i).flatMap escaped
      rw [List.drop_eq_getElem_cons hlt, List.flatMap_cons, List.append_assoc]
    · show value.length - (i + 1) < value.length - i
      omega
  · refine ⟨.done out, ?_, ?_⟩
    · rw [escapeTurn, if_neg hlt]
      rfl
    · show out = out ++ (value.drop i).flatMap escaped
      rw [List.drop_of_length_le (Nat.le_of_not_lt hlt), List.flatMap_nil, List.append_nil]

/-- One more text behind those that have been written. -/
theorem intercalate_take_succ {α : Type} (sep : List α) (ps : List (List α)) (h : i < ps.length) :
    sep.intercalate (ps.take (i + 1)) = (if i > 0 then sep.intercalate (ps.take i) ++ sep else []) ++ ps[i] := by
  rw [List.take_succ_eq_append_getElem h]
  by_cases hpos : i > 0
  · have hne : ps.take i ≠ [] := by
      intro hnil
      have hlen := congrArg List.length hnil
      rw [List.length_take, List.length_nil] at hlen
      omega
    rw [if_pos hpos, intercalate_snoc sep _ hne]
  · obtain rfl : i = 0 := by omega
    rw [if_neg hpos]
    exact List.intercalate_singleton

theorem fieldTurn_next {row : List Bytes} {output : Bytes} (h : i < row.length) :
    fieldTurn (row.map .str) (i, output) =
      .ok (.next (i + 1, (if i > 0 then output ++ [comma] else output) ++ fieldText row[i])) := by
  have hlen : i < (row.map Val.str).length := by
    rw [List.length_map]
    exact h
  have hget : arrayGet (row.map .str) i = .ok (.str row[i]) := by
    rw [arrayGet_ok hlen, List.getElem_map]
  rw [fieldTurn, if_pos hlen, hget]
  show (needsQuotes row[i] >>= _) = _
  unfold fieldText
  rcases needsQuotes_cases row[i] with hneeds | ⟨hneeds, -⟩
  · rw [hneeds]
    show (whileLoop (row[i].length + 1) (escapeTurn row[i]) (0, _ ++ [quote]) >>= _) = _
    rw [escape_ok]
    show Except.ok (Turn.next (i + 1, _ ++ [quote] ++ row[i].flatMap escaped ++ [quote])) = _
    rw [quotedText]
    simp only [List.append_assoc, List.cons_append, List.nil_append]
  · rw [hneeds]
    rfl

theorem row_ok (row : List Bytes) (output : Bytes) :
    whileLoop ((row.map Val.str).length + 1) (fieldTurn (row.map .str)) (0, output) = .ok (output ++ rowText row) := by
  have hlen : (row.map Val.str).length = row.length := List.length_map _
  -- The fields before `column` are written.
  have htotal := @whileLoop_total _ _ (fieldTurn (row.map .str)) ((row.map Val.str).length + 1) (0, output)
    (fun s => s.1 ≤ row.length ∧ s.2 = output ++ [comma].intercalate ((row.map fieldText).take s.1))
    (fun out => out = output ++ rowText row) (fun s => row.length - s.1) ?_
    ⟨Nat.zero_le _, (List.append_nil output).symm⟩ (by rw [hlen]; exact Nat.lt_succ_self _)
  · obtain ⟨out, hrun, rfl⟩ := htotal
    exact hrun
  · rintro ⟨column, out⟩ ⟨hcolumn, hout⟩
    simp only at hcolumn hout
    by_cases hlt : column < row.length
    · have htext : column < (row.map fieldText).length := by
        rw [List.length_map]
        exact hlt
      refine ⟨_, fieldTurn_next hlt, ⟨hlt, ?_⟩, ?_⟩
      · show (if column > 0 then out ++ [comma] else out) ++ fieldText row[column] = _
        rw [intercalate_take_succ [comma] _ htext, List.getElem_map, hout]
        by_cases hpos : column > 0
        · rw [if_pos hpos, if_pos hpos]
          simp only [List.append_assoc]
        · obtain rfl : column = 0 := by omega
          rw [if_neg hpos, if_neg hpos]
          show output ++ [] ++ _ = _
          rw [List.append_nil, List.nil_append]
      · show row.length - (column + 1) < row.length - column
        omega
    · refine ⟨.done out, ?_, ?_⟩
      · rw [fieldTurn, if_neg (by rw [hlen]; exact hlt)]
        rfl
      · show out = output ++ rowText row
        rw [hout, List.take_of_length_le (by rw [List.length_map]; omega)]
        rfl

theorem rowTurn_next {rows : List (List Bytes)} {output : Bytes} (h : i < rows.length) :
    rowTurn (rows.map rowValue) (i, output) =
      .ok (.next (i + 1, output ++ rowText rows[i] ++ if i + 1 < rows.length then crlf else [])) := by
  have hlen : (rows.map rowValue).length = rows.length := List.length_map _
  have hget : arrayGet (rows.map rowValue) i = .ok (rowValue rows[i]) := by
    rw [arrayGet_ok (by rw [hlen]; exact h), List.getElem_map]
  rw [rowTurn, if_pos (by rw [hlen]; exact h), hget]
  show (whileLoop _ (fieldTurn (rows[i].map .str)) (0, output) >>= _) = _
  rw [row_ok, hlen]
  show Except.ok (Turn.next (i + 1, if i + 1 < rows.length then _ else _)) = _
  by_cases hmore : i + 1 < rows.length
  · rw [if_pos hmore, if_pos hmore]
  · rw [if_neg hmore, if_neg hmore, List.append_nil]

/-- `stringify` writes the text of the table. -/
theorem stringify_ok (rows : List (List Bytes)) : stringify (rows.map rowValue) = .ok (csvText rows) := by
  have hlen : (rows.map rowValue).length = rows.length := List.length_map _
  -- The rows before `index` are written, and the line end behind them if there is a row left.
  have htotal := @whileLoop_total _ _ (rowTurn (rows.map rowValue)) ((rows.map rowValue).length + 1) (0, [])
    (fun s => s.1 ≤ rows.length ∧ s.2 = crlf.intercalate ((rows.map rowText).take s.1) ++
      if 0 < s.1 ∧ s.1 < rows.length then crlf else [])
    (fun out => out = csvText rows) (fun s => rows.length - s.1) ?_ ⟨Nat.zero_le _, rfl⟩
    (by rw [hlen]; exact Nat.lt_succ_self _)
  · obtain ⟨out, hrun, rfl⟩ := htotal
    exact hrun
  · rintro ⟨index, out⟩ ⟨hindex, hout⟩
    simp only at hindex hout
    by_cases hlt : index < rows.length
    · have htext : index < (rows.map rowText).length := by
        rw [List.length_map]
        exact hlt
      refine ⟨_, rowTurn_next hlt, ⟨hlt, ?_⟩, ?_⟩
      · have hmore : (if 0 < index + 1 ∧ index + 1 < rows.length then crlf else []) =
            if index + 1 < rows.length then crlf else [] := by
          simp only [Nat.succ_pos, true_and]
        show out ++ rowText rows[index] ++ _ = _
        rw [intercalate_take_succ crlf _ htext, List.getElem_map, hout, hmore]
        by_cases hpos : index > 0
        · rw [if_pos ⟨hpos, hlt⟩, if_pos hpos]
        · obtain rfl : index = 0 := by omega
          rfl
      · show rows.length - (index + 1) < rows.length - index
        omega
    · refine ⟨.done out, ?_, ?_⟩
      · rw [rowTurn, if_neg (by rw [hlen]; exact hlt)]
        rfl
      · show out = csvText rows
        rw [hout, if_neg (fun h => hlt h.2), List.append_nil, List.take_of_length_le (by rw [List.length_map]; omega)]
        rfl

end Vnt.StdLib
