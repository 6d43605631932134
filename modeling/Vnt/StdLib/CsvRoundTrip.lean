import Vnt.StdLib.Csv

/-!
# `StdLib.CsvRoundTrip` — `parse` reads what `stringify` writes

Between two fields the parser is in a state without flags and without a partial field. From there it comes over the text
of a field, of a row and of all rows in no more turns than there are characters; the partial field, the partial row and the
rows are what has been read.
-/

namespace Vnt.StdLib

open Lib (Comes Turn)
open Net (Bytes lf cr space tab crlf)

variable {text rest : Bytes} {c : UInt8} {i : Nat} {s : CsvState} {rows row : List Val} {field : Bytes}

/-! ## One character -/

/-- The rest of the text begins with `c`. -/
theorem get_of_drop (h : text.drop i = c :: rest) :
    i < text.length ∧ stringGet text i = .ok c ∧ text.drop (i + 1) = rest := by
  have hlt : i < text.length := by
    by_contra hge
    rw [List.drop_of_length_le (Nat.le_of_not_lt hge)] at h
    cases h
  have hcons := List.drop_eq_getElem_cons hlt
  rw [h] at hcons
  obtain ⟨hc, hrest⟩ := List.cons.inj hcons
  exact ⟨hlt, by rw [stringGet_ok hlt, hc], hrest.symm⟩

theorem follows_ok (text : Bytes) (i : Nat) (c : UInt8) : follows text i c = .ok ((text.drop (i + 1)).head? = some c) := by
  unfold follows
  by_cases hlt : i + 1 < text.length
  · have hget : stringGet text ((i : Int) + 1) = .ok text[i + 1] := stringGet_ok hlt
    rw [if_pos hlt, hget, List.drop_eq_getElem_cons hlt, List.head?_cons]
    show Except.ok (decide (text[i + 1] = c)) = _
    simp only [Option.some.injEq]
  · rw [if_neg hlt, List.drop_of_length_le (Nat.le_of_not_lt hlt)]
    rfl

/-- A character of a field that is not quoted. -/
theorem turn_plain (h : text.drop i = c :: rest) (hc : c ≠ comma ∧ c ≠ quote ∧ c ≠ lf ∧ c ≠ cr) :
    parseTurn text ⟨rows, row, field, false, false, i⟩ = .ok (.next ⟨rows, row, field ++ [c], false, false, i + 1⟩) := by
  obtain ⟨hlt, hget, -⟩ := get_of_drop h
  rw [parseTurn, if_pos hlt, hget]
  show (if c = quote then _ else separatorTurn text _ c _) = _
  rw [if_neg hc.2.1, separatorTurn, if_neg hc.1, if_neg hc.2.2.1, if_neg hc.2.2.2]
  rfl

/-- The quote in front of a field. -/
theorem turn_open (h : text.drop i = quote :: rest) :
    parseTurn text ⟨rows, row, [], false, false, i⟩ = .ok (.next ⟨rows, row, [], true, false, i + 1⟩) := by
  obtain ⟨hlt, hget, -⟩ := get_of_drop h
  rw [parseTurn, if_pos hlt, hget]
  rfl

/-- Between quotes: a character, or a doubled quote. -/
theorem turn_escaped (h : text.drop i = escaped c ++ rest) : parseTurn text ⟨rows, row, field, true, false, i⟩ =
    .ok (.next ⟨rows, row, field ++ [c], true, false, i + (escaped c).length⟩) := by
  unfold escaped at h ⊢
  by_cases hquote : c = quote
  · subst hquote
    rw [if_pos rfl] at h ⊢
    obtain ⟨hlt, hget, hrest⟩ := get_of_drop h
    have hnext : follows text i quote = .ok true := by
      rw [follows_ok, hrest]
      rfl
    rw [parseTurn, if_pos hlt, hget]
    show (follows text i quote >>= _) = _
    rw [hnext]
    rfl
  · rw [if_neg hquote] at h ⊢
    obtain ⟨hlt, hget, -⟩ := get_of_drop h
    rw [parseTurn, if_pos hlt, hget]
    show (if c = quote then _ else _) = _
    rw [if_neg hquote]
    rfl

/-- The quote behind a field. -/
theorem turn_close (h : text.drop i = quote :: rest) (hrest : rest.head? ≠ some quote) :
    parseTurn text ⟨rows, row, field, true, false, i⟩ = .ok (.next ⟨rows, row, field, false, true, i + 1⟩) := by
  obtain ⟨hlt, hget, hdrop⟩ := get_of_drop h
  have hnext : follows text i quote = .ok false := by
    rw [follows_ok, hdrop, decide_eq_false hrest]
  rw [parseTurn, if_pos hlt, hget]
  show (follows text i quote >>= _) = _
  rw [hnext]
  rfl

theorem endField_ok (hroom : s.row.length < arrayLimit) : endField s = .ok (s.row ++ [.str s.field]) := concat_ok hroom

theorem endRow_ok (hroom : s.row.length < arrayLimit) (hrows : s.rows.length < arrayLimit) :
    endRow s = .ok (s.rows ++ [.arr (s.row ++ [.str s.field])]) := by
  rw [endRow, endField_ok hroom]
  exact concat_ok hrows

/-- What follows a field goes to the separators, quoted or not. -/
theorem turn_separator {after : Bool} (h : text.drop i = c :: rest) (hc : c ≠ quote) : ∃ other,
    parseTurn text ⟨rows, row, field, false, after, i⟩ = separatorTurn text ⟨rows, row, field, false, after, i⟩ c other := by
  obtain ⟨hlt, hget, -⟩ := get_of_drop h
  cases after with
  | true =>
      refine ⟨.done [], ?_⟩
      rw [parseTurn, if_pos hlt, hget]
      rfl
  | false =>
      refine ⟨.next ⟨rows, row, field ++ [c], false, false, i + 1⟩, ?_⟩
      rw [parseTurn, if_pos hlt, hget]
      show (if c = quote then _ else _) = _
      rw [if_neg hc]

theorem turn_comma {after : Bool} (h : text.drop i = comma :: rest) (hroom : row.length < arrayLimit) :
    parseTurn text ⟨rows, row, field, false, after, i⟩ =
      .ok (.next ⟨rows, row ++ [.str field], [], false, false, i + 1⟩) := by
  obtain ⟨other, hturn⟩ := @turn_separator text rest comma i rows row field after h (by decide)
  rw [hturn, separatorTurn, if_pos rfl, endField_ok hroom]
  rfl

theorem turn_crlf {after : Bool} (h : text.drop i = cr :: lf :: rest) (hroom : row.length < arrayLimit)
    (hrows : rows.length < arrayLimit) : parseTurn text ⟨rows, row, field, false, after, i⟩ =
      .ok (.next ⟨rows ++ [.arr (row ++ [.str field])], [], [], false, false, i + 2⟩) := by
  obtain ⟨other, hturn⟩ := @turn_separator text (lf :: rest) cr i rows row field after h (by decide)
  obtain ⟨-, -, hdrop⟩ := get_of_drop h
  have hpair : follows text i lf = .ok true := by
    rw [follows_ok, hdrop]
    rfl
  rw [hturn, separatorTurn, if_neg (by decide), if_neg (by decide), if_pos rfl, endRow_ok hroom hrows]
  show (follows text i lf >>= _) = _
  rw [hpair]
  rfl

/-! ## A field -/

theorem drop_append (h : text.drop i = field ++ rest) : text.drop (i + field.length) = rest := by
  rw [← List.drop_drop, h, List.drop_left]

theorem comes_plain (f : Bytes) (hf : ∀ c ∈ f, c ≠ comma ∧ c ≠ quote ∧ c ≠ lf ∧ c ≠ cr) :
    ∀ {i : Nat} {field : Bytes}, text.drop i = f ++ rest → Comes (parseTurn text) f.length
      ⟨rows, row, field, false, false, i⟩ ⟨rows, row, field ++ f, false, false, i + f.length⟩ := by
  induction f with
  | nil =>
      intro i field _
      rw [List.append_nil]
      exact .refl _
  | cons c f ih =>
      intro i field h
      obtain ⟨-, -, hdrop⟩ := get_of_drop h
      have hrest := @ih (fun d hd => hf d (List.mem_cons_of_mem c hd)) (i + 1) (field ++ [c]) hdrop
      have hfirst := Comes.step (@turn_plain _ _ c i rows row field h (hf c List.mem_cons_self))
      have hall := hfirst.trans hrest
      rw [List.append_assoc] at hall
      rw [List.length_cons, Nat.add_comm f.length 1, ← Nat.add_assoc]
      exact hall

theorem comes_escaped (f : Bytes) : ∀ {i : Nat} {field : Bytes}, text.drop i = f.flatMap escaped ++ rest →
    Comes (parseTurn text) (f.flatMap escaped).length
      ⟨rows, row, field, true, false, i⟩ ⟨rows, row, field ++ f, true, false, i + (f.flatMap escaped).length⟩ := by
  induction f with
  | nil =>
      intro i field _
      rw [List.append_nil]
      exact .refl _
  | cons c f ih =>
      intro i field h
      rw [List.flatMap_cons, List.append_assoc] at h
      have hrest := @ih (i + (escaped c).length) (field ++ [c]) (drop_append h)
      have hone : 1 ≤ (escaped c).length := by
        unfold escaped
        split
        · exact Nat.le_succ 1
        · exact Nat.le_refl 1
      have hfirst : Comes (parseTurn text) (escaped c).length ⟨rows, row, field, true, false, i⟩ _ :=
        (Comes.step (turn_escaped h)).mono hone
      have hall := hfirst.trans hrest
      rw [List.append_assoc] at hall
      rw [List.flatMap_cons, List.length_append, ← Nat.add_assoc]
      exact hall

/-- Over the text of a field. -/
theorem comes_field (f : Bytes) (h : text.drop i = fieldText f ++ rest) (hrest : rest.head? ≠ some quote) :
    ∃ after, Comes (parseTurn text) (fieldText f).length
      ⟨rows, row, [], false, false, i⟩ ⟨rows, row, f, false, after, i + (fieldText f).length⟩ := by
  rcases needsQuotes_cases f with hneeds | ⟨hneeds, hplain⟩
  · have htext : fieldText f = quotedText f := by
      unfold fieldText
      rw [hneeds]
    rw [htext] at h ⊢
    unfold quotedText at h ⊢
    rw [List.append_assoc, List.cons_append] at h
    obtain ⟨-, -, hdrop⟩ := get_of_drop h
    have hinside := @comes_escaped text ([quote] ++ rest) rows row f (i + 1) [] hdrop
    have hend := drop_append hdrop
    have hall := ((Comes.step (turn_open h)).trans hinside).trans (Comes.step (turn_close hend hrest))
    refine ⟨true, ?_⟩
    rw [List.nil_append] at hall
    rw [List.length_append, List.length_cons, List.length_singleton, Nat.add_comm (f.flatMap escaped).length 1,
      ← Nat.add_assoc, ← Nat.add_assoc]
    exact hall
  · have htext : fieldText f = f := by
      unfold fieldText
      rw [hneeds]
    rw [htext] at h ⊢
    exact ⟨false, comes_plain f hplain.chars h⟩

/-! ## A row -/

theorem rowText_cons (f g : Bytes) (gs : List Bytes) :
    rowText (f :: g :: gs) = fieldText f ++ comma :: rowText (g :: gs) := by
  unfold rowText
  rw [List.map_cons, List.map_cons, List.intercalate_cons_cons, List.append_assoc]
  rfl

theorem rowText_singleton (f : Bytes) : rowText [f] = fieldText f := List.intercalate_singleton

/-- Over the text of a row: the last field is still open. -/
theorem comes_row (gs : List Bytes) : ∀ {f : Bytes} {row : List Val} {i : Nat}, text.drop i = rowText (f :: gs) ++ rest →
    rest.head? ≠ some quote → row.length + gs.length < arrayLimit → ∃ front last after, f :: gs = front ++ [last] ∧
      Comes (parseTurn text) (rowText (f :: gs)).length ⟨rows, row, [], false, false, i⟩
        ⟨rows, row ++ front.map .str, last, false, after, i + (rowText (f :: gs)).length⟩ := by
  induction gs with
  | nil =>
      intro f row i h hrest _
      rw [rowText_singleton] at h ⊢
      obtain ⟨after, hcomes⟩ := comes_field f h hrest
      refine ⟨[], f, after, rfl, ?_⟩
      rw [List.map_nil, List.append_nil]
      exact hcomes
  | cons g gs ih =>
      intro f row i h hrest hroom
      rw [List.length_cons] at hroom
      rw [rowText_cons, List.append_assoc, List.cons_append] at h
      have hafter : (comma :: (rowText (g :: gs) ++ rest)).head? ≠ some quote := by
        rw [List.head?_cons]
        decide
      obtain ⟨after, hfield⟩ := @comes_field text _ i rows row f h hafter
      have hcomma := drop_append h
      obtain ⟨-, -, hdrop⟩ := get_of_drop hcomma
      have hstep := Comes.step (@turn_comma text _ _ rows row f after hcomma (by omega))
      have hlen : (row ++ [Val.str f]).length = row.length + 1 := List.length_append
      obtain ⟨front, last, after', hsplit, htail⟩ := @ih g (row ++ [.str f]) _ hdrop hrest (by rw [hlen]; omega)
      refine ⟨f :: front, last, after', by rw [hsplit, List.cons_append], ?_⟩
      have hall := (hfield.trans hstep).trans htail
      rw [rowText_cons, List.length_append, List.length_cons, List.map_cons]
      rw [List.append_assoc, List.singleton_append] at hall
      have hplace : i + ((fieldText f).length + ((rowText (g :: gs)).length + 1)) =
          i + (fieldText f).length + 1 + (rowText (g :: gs)).length := by omega
      rw [hplace]
      exact hall.mono (by omega)

/-! ## All rows -/

theorem csvText_cons (r r' : List Bytes) (rs : List (List Bytes)) :
    csvText (r :: r' :: rs) = rowText r ++ cr :: lf :: csvText (r' :: rs) := by
  unfold csvText
  rw [List.map_cons, List.map_cons, List.intercalate_cons_cons, List.append_assoc]
  rfl

theorem csvText_singleton (r : List Bytes) : csvText [r] = rowText r := List.intercalate_singleton

/-- A table that a program can hold: its rows have fields, and no array has too many items. -/
structure CsvTable where
  rows : List (List Bytes)
  nonempty : ∀ row ∈ rows, row ≠ []
  rowRoom : ∀ row ∈ rows, row.length ≤ arrayLimit
  room : rows.length ≤ arrayLimit

/-- Over the whole text: the last field of the last row is still open. -/
theorem comes_rows (rs : List (List Bytes)) : ∀ {r : List Bytes} {rows : List Val} {i : Nat},
    text.drop i = csvText (r :: rs) → (∀ row ∈ r :: rs, row ≠ [] ∧ row.length ≤ arrayLimit) →
    rows.length + rs.length < arrayLimit → ∃ before front last after, r :: rs = before ++ [front ++ [last]] ∧
      Comes (parseTurn text) (csvText (r :: rs)).length ⟨rows, [], [], false, false, i⟩
        ⟨rows ++ before.map rowValue, front.map .str, last, false, after, i + (csvText (r :: rs)).length⟩ := by
  induction rs with
  | nil =>
      intro r rows i h hall _
      obtain ⟨hne, hroom⟩ := hall r List.mem_cons_self
      obtain ⟨f, gs, rfl⟩ := List.exists_cons_of_ne_nil hne
      rw [csvText_singleton] at h ⊢
      rw [List.length_cons] at hroom
      have hend : ([] : Bytes).head? ≠ some quote := by
        rw [List.head?_nil]
        decide
      obtain ⟨front, last, after, hsplit, hrow⟩ := @comes_row text [] rows gs f [] i (by rw [List.append_nil]; exact h) hend
        (by rw [List.length_nil, Nat.zero_add]; exact hroom)
      refine ⟨[], front, last, after, by rw [hsplit]; rfl, ?_⟩
      rw [List.map_nil, List.append_nil]
      exact hrow
  | cons r' rs ih =>
      intro r rows i h hall hrows
      obtain ⟨hne, hroom⟩ := hall r List.mem_cons_self
      obtain ⟨f, gs, rfl⟩ := List.exists_cons_of_ne_nil hne
      rw [List.length_cons] at hroom hrows
      rw [csvText_cons] at h
      have hnext : (cr :: lf :: csvText (r' :: rs)).head? ≠ some quote := by
        rw [List.head?_cons]
        decide
      obtain ⟨front, last, after, hsplit, hrow⟩ := @comes_row text _ rows gs f [] i h hnext
        (by rw [List.length_nil, Nat.zero_add]; exact hroom)
      have hfront : front.length < arrayLimit := by
        have hlen := congrArg List.length hsplit
        rw [List.length_cons, List.length_append, List.length_singleton] at hlen
        omega
      have hline := drop_append h
      have hstep := Comes.step (@turn_crlf text _ _ rows (front.map .str) last after hline
        (by rw [List.length_map]; exact hfront) (by omega))
      have hvalue : Val.arr (front.map .str ++ [.str last]) = rowValue (f :: gs) := by
        rw [rowValue, hsplit, List.map_append]
        rfl
      rw [hvalue] at hstep
      have hdrop : text.drop (i + (rowText (f :: gs)).length + 2) = csvText (r' :: rs) := by
        rw [← List.drop_drop, hline]
        rfl
      have hlen : (rows ++ [rowValue (f :: gs)]).length = rows.length + 1 := List.length_append
      obtain ⟨before, front', last', after', hsplit', htail⟩ := @ih r' (rows ++ [rowValue (f :: gs)]) _ hdrop
        (fun row hrow => hall row (List.mem_cons_of_mem _ hrow)) (by rw [hlen]; omega)
      refine ⟨(f :: gs) :: before, front', last', after', by rw [hsplit', List.cons_append], ?_⟩
      have hcomes := (hrow.trans hstep).trans htail
      rw [csvText_cons, List.length_append, List.length_cons, List.length_cons, List.map_cons]
      rw [List.append_assoc, List.singleton_append] at hcomes
      have hplace : i + ((rowText (f :: gs)).length + ((csvText (r' :: rs)).length + 1 + 1)) =
          i + (rowText (f :: gs)).length + 2 + (csvText (r' :: rs)).length := by omega
      rw [hplace]
      exact hcomes.mono (by omega)

/-! ## The end of the text -/

/-- The text does not end with the end of a line. -/
def EndsInField (t : Bytes) : Prop := ∃ front c, t = front ++ [c] ∧ c ≠ lf ∧ c ≠ cr

theorem EndsInField.append (s : Bytes) {t : Bytes} (h : EndsInField t) : EndsInField (s ++ t) := by
  obtain ⟨front, c, rfl, hc⟩ := h
  exact ⟨s ++ front, c, (List.append_assoc _ _ _).symm, hc⟩

theorem endsInField_field (f : Bytes) : EndsInField (fieldText f) := by
  unfold fieldText
  rcases needsQuotes_cases f with hneeds | ⟨hneeds, hplain⟩
  · rw [hneeds]
    exact ⟨quote :: f.flatMap escaped, quote, rfl, by decide, by decide⟩
  · rw [hneeds]
    obtain ⟨-, -, hlf, hcr⟩ := hplain.chars _ (List.getLast_mem hplain.ne)
    exact ⟨f.dropLast, f.getLast hplain.ne, (List.dropLast_append_getLast hplain.ne).symm, hlf, hcr⟩

theorem endsInField_row (gs : List Bytes) : ∀ f, EndsInField (rowText (f :: gs)) := by
  induction gs with
  | nil =>
      intro f
      rw [rowText_singleton]
      exact endsInField_field f
  | cons g gs ih =>
      intro f
      rw [rowText_cons, ← List.singleton_append, ← List.append_assoc]
      exact (ih g).append _

theorem endsInField_rows (rs : List (List Bytes)) : ∀ r, (∀ row ∈ r :: rs, row ≠ []) → EndsInField (csvText (r :: rs)) := by
  induction rs with
  | nil =>
      intro r hne
      obtain ⟨f, gs, rfl⟩ := List.exists_cons_of_ne_nil (hne r List.mem_cons_self)
      rw [csvText_singleton]
      exact endsInField_row gs f
  | cons r' rs ih =>
      intro r hne
      rw [csvText_cons]
      exact ((ih r' fun row hrow => hne row (List.mem_cons_of_mem _ hrow)).append [cr, lf]).append _

/-- The turn behind the last character. -/
theorem turn_end {after : Bool} (htext : EndsInField text) (hi : text.length ≤ i) (hroom : row.length < arrayLimit)
    (hrows : rows.length < arrayLimit) : parseTurn text ⟨rows, row, field, false, after, i⟩ =
      .ok (.done (rows ++ [.arr (row ++ [.str field])])) := by
  obtain ⟨front, c, rfl, hlf, hcr⟩ := htext
  have hlen : (front ++ [c]).length = front.length + 1 := List.length_append
  have hlast : stringGet (front ++ [c]) (((front ++ [c]).length : Int) - 1) = .ok c := by
    have hplace : front.length < (front ++ [c]).length := by omega
    rw [show ((front ++ [c]).length : Int) - 1 = (front.length : Nat) by omega, stringGet_ok hplace,
      List.getElem_concat_length rfl]
  rw [parseTurn, if_neg (Nat.not_lt.mpr hi), if_neg Bool.false_ne_true, hlast]
  show (if c ≠ lf ∧ c ≠ cr then _ else _) = _
  rw [if_pos ⟨hlf, hcr⟩, endRow_ok hroom hrows]
  rfl

/-! ## The round trip -/

theorem parse_csvText (table : CsvTable) : parse (csvText table.rows) = .ok (table.rows.map rowValue) := by
  obtain ⟨rows, hne, hrowRoom, hroom⟩ := table
  cases rows with
  | nil => rfl
  | cons r rs =>
      have hends := endsInField_rows rs r hne
      obtain ⟨before, front, last, after, hsplit, hcomes⟩ := @comes_rows (csvText (r :: rs)) rs r [] 0 rfl
        (fun row hrow => ⟨hne row hrow, hrowRoom row hrow⟩) (by rw [List.length_nil, Nat.zero_add]; exact hroom)
      have hbefore : before.length < arrayLimit := by
        have hlen := congrArg List.length hsplit
        rw [List.length_append, List.length_singleton] at hlen
        rw [hlen] at hroom
        exact hroom
      have hfront : front.length < arrayLimit := by
        have hmem : front ++ [last] ∈ r :: rs := by
          rw [hsplit]
          exact List.mem_append_right _ List.mem_cons_self
        have hlen := hrowRoom _ hmem
        rw [List.length_append, List.length_singleton] at hlen
        exact hlen
      have hnonempty : (csvText (r :: rs)).length ≠ 0 := by
        obtain ⟨text, c, htext, -⟩ := hends
        rw [htext, List.length_append, List.length_singleton]
        exact Nat.succ_ne_zero _
      have hdone := @turn_end (csvText (r :: rs)) (0 + (csvText (r :: rs)).length) ([] ++ before.map rowValue)
        (front.map .str) last after hends (by rw [Nat.zero_add])
        (by rw [List.length_map]; exact hfront) (by rw [List.nil_append, List.length_map]; exact hbefore)
      rw [parse, if_neg hnonempty]
      show Lib.loop _ _ _ _ = _
      rw [hcomes.finish hdone (Nat.lt_succ_self _)]
      show _ = Except.ok (List.map rowValue (r :: rs))
      rw [hsplit, List.map_append, List.nil_append]
      show Except.ok (_ ++ [Val.arr (front.map .str ++ [.str last])]) = Except.ok (_ ++ [rowValue (front ++ [last])])
      rw [rowValue, List.map_append]
      rfl

/-- What `stringify` writes of a table, `parse` reads as that table. -/
theorem csv_round_trip (table : CsvTable) :
    (stringify (table.rows.map rowValue) >>= parse) = .ok (table.rows.map rowValue) := by
  rw [stringify_ok]
  exact parse_csvText table

end Vnt.StdLib
