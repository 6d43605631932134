import Vnt.Net.Chunked

/-!
# `Vnt.Net.ChunkGrammar`: the grammar of chunked bodies

`Chunked c d lines`: the bytes `c` are a chunked body that stands for `d`; its size lines and trailer lines are `lines`.
The grammar puts no limit on a line. A reader with a limit reads exactly the bodies whose lines keep to it.
-/

namespace Vnt.Net

/-- A line with nothing in it that ends a line. -/
def Unbroken (line : Bytes) : Prop := ∀ c ∈ line, c ≠ cr ∧ c ≠ lf

/-- Trailer fields and the empty line. -/
inductive Trailers : Bytes → List Bytes → Prop
  | last : Trailers crlf []
  | field {line t : Bytes} {lines : List Bytes} : validFieldLine line = true → Trailers t lines →
      Trailers (line ++ crlf ++ t) (line :: lines)

/-- A chunked body. -/
inductive Chunked : Bytes → Bytes → List Bytes → Prop
  | last {line t : Bytes} {lines : List Bytes} : Unbroken line → chunkSize line = some 0 → Trailers t lines →
      Chunked (line ++ crlf ++ t) [] (line :: lines)
  | chunk {line data c d : Bytes} {lines : List Bytes} : Unbroken line → data ≠ [] → chunkSize line = some data.length →
      Chunked c d lines →
      Chunked (line ++ crlf ++ (data ++ crlf ++ c)) (data ++ d) (line :: lines)

/-- Lines of at most `limit` bytes. -/
def Within (limit : Nat) (lines : List Bytes) : Prop := ∀ line ∈ lines, line.length ≤ limit

variable {limit n fuel : Nat} {line bytes rest t c d : Bytes} {lines : List Bytes}

theorem Within.head (h : Within limit (line :: lines)) : line.length ≤ limit := h line List.mem_cons_self

theorem Within.tail (h : Within limit (line :: lines)) : Within limit lines :=
  fun l hl => h l (List.mem_cons_of_mem _ hl)

theorem Within.cons (hline : line.length ≤ limit) (h : Within limit lines) : Within limit (line :: lines) := by
  intro l hl
  rcases List.mem_cons.mp hl with rfl | hl
  · exact hline
  · exact h l hl

theorem Unbroken.head {x : UInt8} (h : Unbroken (x :: line)) : x ≠ cr ∧ x ≠ lf := h x List.mem_cons_self

theorem Unbroken.tail {x : UInt8} (h : Unbroken (x :: line)) : Unbroken line := fun y hy => h y (List.mem_cons_of_mem _ hy)

theorem Unbroken.cons {x : UInt8} (hcr : x ≠ cr) (hlf : x ≠ lf) (h : Unbroken line) : Unbroken (x :: line) := by
  intro y hy
  rcases List.mem_cons.mp hy with rfl | hy
  · exact ⟨hcr, hlf⟩
  · exact h y hy

theorem Unbroken.noLf (h : Unbroken line) : lf ∉ line := fun hmem => (h lf hmem).2 rfl

/-- A trailer field has no byte that ends a line. -/
theorem validFieldLine_unbroken (h : validFieldLine line = true) : Unbroken line := by
  unfold validFieldLine at h
  split at h
  · cases h
  rename_i name value hsplit
  obtain ⟨-, hname, hvalue⟩ := of_decide_eq_true h
  intro x hx
  rw [splitColon_some hsplit] at hx
  rcases List.mem_append.mp hx with hx | hx
  · have hchar := List.all_eq_true.mp hname x hx
    constructor
    · rintro rfl
      exact absurd hchar (by decide)
    · rintro rfl
      exact absurd hchar (by decide)
  rcases List.mem_cons.mp hx with rfl | hx
  · decide
  · have hchar := List.all_eq_true.mp hvalue x hx
    constructor
    · rintro rfl
      exact absurd hchar (by decide)
    · rintro rfl
      exact absurd hchar (by decide)

theorem validFieldLine_ne_nil (h : validFieldLine line = true) : line ≠ [] := by
  rintro rfl
  cases h

theorem validFieldLine_colon (h : validFieldLine line = true) : colon ∈ line := by
  unfold validFieldLine at h
  split at h
  · cases h
  rename_i name value hsplit
  rw [splitColon_some hsplit]
  exact List.mem_append_right _ List.mem_cons_self

/-! ## One line -/

theorem readLine_unbroken : ∀ {n : Nat} {line : Bytes}, Unbroken line → line = [] ∨ n + line.length ≤ limit →
    ∀ rest, readLine limit n (line ++ crlf ++ rest) = some (line, rest)
  | _, [], _, _, _ => rfl
  | n, x :: line, hclean, hlimit, rest => by
      have hlen : n + (line.length + 1) ≤ limit := by
        rcases hlimit with h | h
        · cases h
        · exact h
      have hmore := readLine_unbroken (n := n + 1) hclean.tail (Or.inr (by omega)) rest
      obtain ⟨y, more, hy⟩ : ∃ y more, line ++ crlf ++ rest = y :: more := by
        cases line with
        | nil => exact ⟨cr, lf :: rest, rfl⟩
        | cons y line => exact ⟨y, line ++ crlf ++ rest, rfl⟩
      show readLine limit n (x :: (line ++ crlf ++ rest)) = _
      have hend : ¬(x = cr ∧ y = lf) := fun h => hclean.head.1 h.1
      have hstop : ¬(x = cr ∨ x = lf ∨ n ≥ limit) := by
        rintro (h | h | h)
        · exact hclean.head.1 h
        · exact hclean.head.2 h
        · omega
      rw [hy] at hmore ⊢
      rw [readLine, if_neg hend, if_neg hstop, hmore]
      rfl

theorem readLine_some : ∀ {n : Nat} {bytes line rest : Bytes}, readLine limit n bytes = some (line, rest) →
    bytes = line ++ crlf ++ rest ∧ Unbroken line ∧ (line = [] ∨ n + line.length ≤ limit)
  | _, [], _, _, h => nomatch h
  | _, [_], _, _, h => nomatch h
  | n, x :: y :: more, line, rest, h => by
      rw [readLine] at h
      by_cases hend : x = cr ∧ y = lf
      · rw [if_pos hend] at h
        cases h
        rw [hend.1, hend.2]
        exact ⟨rfl, nofun, Or.inl rfl⟩
      rw [if_neg hend] at h
      by_cases hstop : x = cr ∨ x = lf ∨ n ≥ limit
      · rw [if_pos hstop] at h
        cases h
      rw [if_neg hstop] at h
      rw [not_or, not_or] at hstop
      obtain ⟨r, hr, heq⟩ := Option.map_eq_some_iff.mp h
      cases heq
      obtain ⟨hbytes, hclean, hlen⟩ := readLine_some hr
      refine ⟨?_, hclean.cons hstop.1 hstop.2.1, Or.inr ?_⟩
      · rw [hbytes]
        rfl
      · rw [List.length_cons]
        rcases hlen with hlen | hlen
        · rw [hlen, List.length_nil]
          omega
        · omega

/-! ## The buffered reader -/

theorem readTrailers_trailers (h : Trailers t lines) : ∀ {fuel : Nat}, t.length ≤ fuel → Within limit lines →
    ∀ rest, readTrailers limit fuel (t ++ rest) = some rest := by
  induction h with
  | last =>
      intro fuel hfuel _ rest
      obtain ⟨fuel, rfl⟩ := Nat.exists_eq_add_one_of_ne_zero (show fuel ≠ 0 from fun h0 => by subst h0; cases hfuel)
      have hline := @readLine_unbroken limit 0 [] nofun (Or.inl rfl) rest
      rw [readTrailers, show crlf ++ rest = [] ++ crlf ++ rest from rfl, hline]
      rfl
  | field hvalid ht ih =>
      rename_i line t lines
      intro fuel hfuel hwithin rest
      rw [List.length_append, List.length_append] at hfuel
      have hcrlf : crlf.length = 2 := rfl
      obtain ⟨fuel, rfl⟩ := Nat.exists_eq_add_one_of_ne_zero (show fuel ≠ 0 by omega)
      have hline := @readLine_unbroken limit 0 line (validFieldLine_unbroken hvalid)
        (Or.inr (by rw [Nat.zero_add]; exact hwithin.head)) (t ++ rest)
      rw [List.append_assoc _ t rest, readTrailers, hline]
      simp only
      rw [if_neg (validFieldLine_ne_nil hvalid), if_pos hvalid]
      exact ih (by omega) hwithin.tail rest

theorem readTrailers_some : ∀ {fuel : Nat} {bytes rest : Bytes}, readTrailers limit fuel bytes = some rest →
    ∃ t lines, bytes = t ++ rest ∧ Trailers t lines ∧ Within limit lines
  | 0, _, _, h => nomatch h
  | fuel + 1, bytes, rest, h => by
      rw [readTrailers] at h
      split at h
      · cases h
      rename_i line more hline
      obtain ⟨hbytes, -, hlen⟩ := readLine_some hline
      split at h
      · rename_i hempty
        cases h
        rw [hbytes, hempty]
        exact ⟨crlf, [], rfl, .last, nofun⟩
      rename_i hne
      split at h
      · rename_i hvalid
        obtain ⟨t, lines, hmore, ht, hwithin⟩ := readTrailers_some h
        refine ⟨line ++ crlf ++ t, line :: lines, ?_, .field hvalid ht, hwithin.cons ?_⟩
        · rw [hbytes, hmore, List.append_assoc _ t rest]
        · rcases hlen with hlen | hlen
          · exact absurd hlen hne
          · omega
      · cases h

/-- **The buffered reader reads every body whose lines keep to its limit.** -/
theorem readChunks_chunked (h : Chunked c d lines) : ∀ {fuel : Nat}, c.length ≤ fuel → Within limit lines →
    ∀ rest, readChunks limit fuel (c ++ rest) = some (d, rest) := by
  induction h with
  | last hclean hsize ht =>
      rename_i line t lines
      intro fuel hfuel hwithin rest
      rw [List.length_append, List.length_append] at hfuel
      have hcrlf : crlf.length = 2 := rfl
      obtain ⟨fuel, rfl⟩ := Nat.exists_eq_add_one_of_ne_zero (show fuel ≠ 0 by omega)
      have hline := @readLine_unbroken limit 0 line hclean
        (Or.inr (by rw [Nat.zero_add]; exact hwithin.head)) (t ++ rest)
      have hrest : readTrailers limit ((t ++ rest).length + 1) (t ++ rest) = some rest := by
        apply readTrailers_trailers ht _ hwithin.tail
        rw [List.length_append]
        omega
      rw [List.append_assoc _ t rest, readChunks, hline]
      simp only
      rw [hsize]
      simp only
      rw [hrest]
      rfl
  | chunk hclean hne hsize hc ih =>
      rename_i line data c d lines
      intro fuel hfuel hwithin rest
      simp only [List.length_append] at hfuel
      have hcrlf : crlf.length = 2 := rfl
      obtain ⟨fuel, rfl⟩ := Nat.exists_eq_add_one_of_ne_zero (show fuel ≠ 0 by omega)
      have hline := @readLine_unbroken limit 0 line hclean
        (Or.inr (by rw [Nat.zero_add]; exact hwithin.head)) (data ++ (crlf ++ (c ++ rest)))
      have hbytes : line ++ crlf ++ (data ++ crlf ++ c) ++ rest = line ++ crlf ++ (data ++ (crlf ++ (c ++ rest))) := by
        simp only [List.append_assoc]
      obtain ⟨k, hk⟩ := Nat.exists_eq_add_one_of_ne_zero (show data.length ≠ 0 from
        fun h0 => hne (List.length_eq_zero_iff.mp h0))
      have hroom : ¬(k + 1 > (data ++ (crlf ++ (c ++ rest))).length ∨
          (data ++ (crlf ++ (c ++ rest))).length - (k + 1) < 2) := by
        simp only [List.length_append]
        omega
      rw [hbytes, readChunks, hline]
      simp only
      rw [hsize, hk]
      simp only
      rw [if_neg hroom, ← hk, List.drop_left, List.take_left]
      show (readChunks limit fuel (c ++ rest)).map _ = _
      rw [ih (by omega) hwithin.tail rest]
      rfl

/-- **What the buffered reader reads is a body whose lines keep to its limit.** -/
theorem readChunks_some : ∀ {fuel : Nat} {bytes d rest : Bytes}, readChunks limit fuel bytes = some (d, rest) →
    ∃ c lines, bytes = c ++ rest ∧ Chunked c d lines ∧ Within limit lines
  | 0, _, _, _, h => nomatch h
  | fuel + 1, bytes, d, rest, h => by
      rw [readChunks] at h
      split at h
      · cases h
      rename_i line more hline
      obtain ⟨hbytes, hclean, hlen⟩ := readLine_some hline
      have hlimit : line.length ≤ limit := by
        rcases hlen with rfl | hlen
        · exact Nat.zero_le _
        · omega
      split at h
      · cases h
      · rename_i hsize
        obtain ⟨left, hleft, heq⟩ := Option.map_eq_some_iff.mp h
        cases heq
        obtain ⟨t, lines, hmore, ht, hwithin⟩ := readTrailers_some hleft
        refine ⟨line ++ crlf ++ t, line :: lines, ?_, .last hclean hsize ht, hwithin.cons hlimit⟩
        rw [hbytes, hmore, List.append_assoc _ t rest]
      · rename_i k hsize
        split at h
        · cases h
        rename_i hroom
        split at h
        · rename_i after hdrop
          obtain ⟨r, hr, heq⟩ := Option.map_eq_some_iff.mp h
          cases heq
          obtain ⟨c, lines, hafter, hc, hwithin⟩ := readChunks_some hr
          have htake : (more.take (k + 1)).length = k + 1 := by
            rw [List.length_take]
            omega
          refine ⟨line ++ crlf ++ (more.take (k + 1) ++ crlf ++ c), line :: lines, ?_,
            .chunk hclean (fun h0 => ?_) ?_ hc, hwithin.cons hlimit⟩
          · have hmore : more = more.take (k + 1) ++ (crlf ++ (c ++ r.2)) := by
              rw [← hafter]
              show more = more.take (k + 1) ++ 13 :: 10 :: after
              rw [← hdrop, List.take_append_drop]
            rw [hbytes]
            nth_rewrite 1 [hmore]
            simp only [List.append_assoc]
          · rw [h0] at htake
            cases htake
          · rw [htake]
            exact hsize
        · cases h

/-! ## One reading -/

theorem line_unique {line' rest' : Bytes} (hline : Unbroken line) (hline' : Unbroken line')
    (h : line ++ crlf ++ rest = line' ++ crlf ++ rest') : line = line' ∧ rest = rest' := by
  have hsplit := splitCrlf_line hline.noLf rest
  rw [h, splitCrlf_line hline'.noLf rest'] at hsplit
  cases hsplit
  exact ⟨rfl, rfl⟩

theorem Trailers.unique (h : Trailers t lines) : ∀ {t' rest rest' : Bytes} {lines' : List Bytes}, Trailers t' lines' →
    t ++ rest = t' ++ rest' → lines = lines' := by
  have hnil : Unbroken [] := nofun
  induction h with
  | last =>
      intro t' rest rest' lines' h' heq
      cases h' with
      | last => rfl
      | field hvalid ht =>
          rw [List.append_assoc] at heq
          obtain ⟨hempty, -⟩ := line_unique hnil (validFieldLine_unbroken hvalid) heq
          exact absurd hempty.symm (validFieldLine_ne_nil hvalid)
  | field hvalid ht ih =>
      intro t' rest rest' lines' h' heq
      cases h' with
      | last =>
          rw [List.append_assoc] at heq
          obtain ⟨hempty, -⟩ := line_unique (validFieldLine_unbroken hvalid) hnil heq
          exact absurd hempty (validFieldLine_ne_nil hvalid)
      | field hvalid' ht' =>
          rw [List.append_assoc, List.append_assoc _ _ rest'] at heq
          obtain ⟨rfl, hrest⟩ := line_unique (validFieldLine_unbroken hvalid) (validFieldLine_unbroken hvalid') heq
          rw [ih ht' hrest]

/-- **The grammar is unambiguous**: a buffer begins with one body at most. -/
theorem Chunked.unique (h : Chunked c d lines) : ∀ {c' d' rest rest' : Bytes} {lines' : List Bytes},
    Chunked c' d' lines' → c ++ rest = c' ++ rest' → lines = lines' := by
  induction h with
  | last hclean hsize ht =>
      intro c' d' rest rest' lines' h' heq
      cases h' with
      | last hclean' _ ht' =>
          rw [List.append_assoc, List.append_assoc _ _ rest'] at heq
          obtain ⟨rfl, hrest⟩ := line_unique hclean hclean' heq
          rw [ht.unique ht' hrest]
      | chunk hclean' hdata' hsize' _ =>
          rw [List.append_assoc, List.append_assoc _ _ rest'] at heq
          obtain ⟨rfl, -⟩ := line_unique hclean hclean' heq
          rw [hsize] at hsize'
          exact absurd (List.length_eq_zero_iff.mp (Option.some.inj hsize').symm) hdata'
  | chunk hclean hdata hsize hc ih =>
      intro c' d' rest rest' lines' h' heq
      cases h' with
      | last hclean' hsize' _ =>
          rw [List.append_assoc, List.append_assoc _ _ rest'] at heq
          obtain ⟨rfl, -⟩ := line_unique hclean hclean' heq
          rw [hsize] at hsize'
          exact absurd (List.length_eq_zero_iff.mp (Option.some.inj hsize')) hdata
      | chunk hclean' hdata' hsize' hc' =>
          rw [List.append_assoc, List.append_assoc _ _ rest'] at heq
          obtain ⟨rfl, hrest⟩ := line_unique hclean hclean' heq
          rw [hsize] at hsize'
          simp only [List.append_assoc] at hrest
          obtain ⟨-, hmore⟩ := List.append_inj hrest (Option.some.inj hsize')
          rw [ih hc' (List.append_cancel_left hmore)]

/-- No line is longer than the body it is in. -/
theorem Chunked.within (h : Chunked c d lines) : Within c.length lines := by
  have htrailers : ∀ {t : Bytes} {lines : List Bytes}, Trailers t lines → Within t.length lines := by
    intro t lines ht
    induction ht with
    | last => exact nofun
    | field hvalid ht ih =>
        apply Within.cons
        · simp only [List.length_append]
          omega
        · intro l hl
          have hle := ih l hl
          simp only [List.length_append]
          omega
  induction h with
  | last hclean hsize ht =>
      apply Within.cons
      · simp only [List.length_append]
        omega
      · intro l hl
        have hle := htrailers ht l hl
        simp only [List.length_append]
        omega
  | chunk hclean hdata hsize hc ih =>
      apply Within.cons
      · simp only [List.length_append]
        omega
      · intro l hl
        have hle := ih l hl
        simp only [List.length_append]
        omega

/-- **A body is read in one way**: what it stands for, and what is behind it. -/
theorem Chunked.reading {c' d' rest' : Bytes} {lines' : List Bytes} (h : Chunked c d lines) (h' : Chunked c' d' lines')
    (heq : c ++ rest = c' ++ rest') : d = d' ∧ rest = rest' := by
  have hread := @readChunks_chunked (c.length + c'.length) c d lines h (c.length + c'.length) (Nat.le_add_right _ _)
    (fun l hl => Nat.le_trans (h.within l hl) (Nat.le_add_right _ _)) rest
  have hread' := @readChunks_chunked (c.length + c'.length) c' d' lines' h' (c.length + c'.length) (Nat.le_add_left _ _)
    (fun l hl => Nat.le_trans (h'.within l hl) (Nat.le_add_left _ _)) rest'
  rw [heq, hread'] at hread
  cases hread
  exact ⟨rfl, rfl⟩

theorem Chunked.ne_nil (h : Chunked c d lines) : c ≠ [] := by
  intro hnil
  have hlen : 0 < c.length := by
    cases h with
    | last _ _ _ =>
        simp only [List.length_append]
        exact Nat.lt_of_lt_of_le (Nat.lt_of_lt_of_le (by decide) (Nat.le_add_left _ _)) (Nat.le_add_right _ _)
    | chunk _ _ _ _ =>
        simp only [List.length_append]
        exact Nat.lt_of_lt_of_le (Nat.lt_of_lt_of_le (by decide) (Nat.le_add_left _ _)) (Nat.le_add_right _ _)
  rw [hnil] at hlen
  cases hlen

/-! ## The completeness test -/

/-- A clean line that lacks its CRLF is not split. -/
theorem splitCrlf_unended (hline : lf ∉ bytes) : splitCrlf bytes = none := by
  cases hsplit : splitCrlf bytes with
  | none => rfl
  | some r =>
      rw [splitCrlf_some hsplit] at hline
      exact absurd (List.mem_append_left _ (List.mem_append_right _ (by decide))) hline

/-- A part of a line that stops before its LF is not split. -/
theorem splitCrlf_inside {p : Bytes} (hclean : Unbroken line) (hin : p <+: line ++ [cr]) : splitCrlf p = none := by
  apply splitCrlf_unended
  intro hmem
  rcases List.mem_append.mp (hin.subset hmem) with hmem | hmem
  · exact hclean.noLf hmem
  · exact absurd hmem (by decide)

/-- A proper prefix of an ended line with more behind it ends inside the line or behind it. -/
theorem prefix_line {p : Bytes} (h : p <+: line ++ crlf ++ rest) :
    (p <+: line ++ [cr]) ∨ ∃ q, p = line ++ crlf ++ q ∧ q <+: rest := by
  obtain ⟨s, hs⟩ := h
  rcases List.append_eq_append_iff.mp hs with ⟨q, hq, -⟩ | ⟨q, hq, hrest⟩
  · by_cases hlen : q = []
    · subst hlen
      exact Or.inr ⟨[], by rw [hq]; simp, List.nil_prefix⟩
    · refine Or.inl ?_
      have hlast : p ++ q = (line ++ [cr]) ++ [lf] := by
        rw [← hq]
        simp [crlf]
      rw [← List.dropLast_append_getLast hlen, ← List.append_assoc] at hlast
      exact ⟨_, (List.append_inj' hlast rfl).1⟩
  · exact Or.inr ⟨q, hq, ⟨s, hrest.symm⟩⟩

theorem completeTrailers_trailers (h : Trailers t lines) : ∀ {fuel : Nat}, t.length ≤ fuel →
    ∀ rest, completeTrailers fuel (t ++ rest) = true := by
  induction h with
  | last =>
      intro fuel hfuel rest
      obtain ⟨fuel, rfl⟩ := Nat.exists_eq_add_one_of_ne_zero (show fuel ≠ 0 from fun h0 => by subst h0; cases hfuel)
      rw [completeTrailers, show crlf ++ rest = [] ++ crlf ++ rest from rfl, splitCrlf_line List.not_mem_nil]
      rfl
  | field hvalid ht ih =>
      rename_i line t lines
      intro fuel hfuel rest
      rw [List.length_append, List.length_append] at hfuel
      have hcrlf : crlf.length = 2 := rfl
      obtain ⟨fuel, rfl⟩ := Nat.exists_eq_add_one_of_ne_zero (show fuel ≠ 0 by omega)
      rw [List.append_assoc _ t rest, completeTrailers, splitCrlf_line (validFieldLine_unbroken hvalid).noLf]
      simp only
      rw [if_neg (validFieldLine_ne_nil hvalid), if_pos (validFieldLine_colon hvalid)]
      exact ih (by omega) rest

theorem completeChunks_chunked (h : Chunked c d lines) : ∀ {fuel : Nat}, c.length ≤ fuel →
    ∀ rest, completeChunks fuel (c ++ rest) = true := by
  induction h with
  | last hclean hsize ht =>
      rename_i line t lines
      intro fuel hfuel rest
      rw [List.length_append, List.length_append] at hfuel
      have hcrlf : crlf.length = 2 := rfl
      obtain ⟨fuel, rfl⟩ := Nat.exists_eq_add_one_of_ne_zero (show fuel ≠ 0 by omega)
      rw [List.append_assoc _ t rest, completeChunks, splitCrlf_line hclean.noLf]
      simp only
      rw [hsize]
      apply completeTrailers_trailers ht
      rw [List.length_append]
      omega
  | chunk hclean hne hsize hc ih =>
      rename_i line data c d lines
      intro fuel hfuel rest
      simp only [List.length_append] at hfuel
      have hcrlf : crlf.length = 2 := rfl
      obtain ⟨fuel, rfl⟩ := Nat.exists_eq_add_one_of_ne_zero (show fuel ≠ 0 by omega)
      have hbytes : line ++ crlf ++ (data ++ crlf ++ c) ++ rest = line ++ crlf ++ (data ++ (crlf ++ (c ++ rest))) := by
        simp only [List.append_assoc]
      obtain ⟨k, hk⟩ := Nat.exists_eq_add_one_of_ne_zero (show data.length ≠ 0 from
        fun h0 => hne (List.length_eq_zero_iff.mp h0))
      have hroom : ¬(k + 1 > (data ++ (crlf ++ (c ++ rest))).length ∨
          (data ++ (crlf ++ (c ++ rest))).length - (k + 1) < 2) := by
        simp only [List.length_append]
        omega
      rw [hbytes, completeChunks, splitCrlf_line hclean.noLf]
      simp only
      rw [hsize, hk]
      simp only
      rw [if_neg hroom, ← hk, List.drop_left]
      exact ih (by omega) rest

theorem completeTrailers_prefix (h : Trailers t lines) : ∀ {fuel : Nat} {p : Bytes}, p <+: t → p ≠ t →
    completeTrailers fuel p = false := by
  induction h with
  | last =>
      intro fuel p hp hne
      cases fuel with
      | zero => rfl
      | succ fuel =>
          have hp' : p <+: [cr] := by
            rcases prefix_line (show p <+: [] ++ crlf ++ [] from hp) with h | ⟨q, hq, hnil⟩
            · exact h
            · rw [List.prefix_nil.mp hnil] at hq
              exact absurd hq hne
          have hclean : Unbroken [] := nofun
          rw [completeTrailers, splitCrlf_inside hclean hp']
  | field hvalid ht ih =>
      rename_i line t lines
      intro fuel p hp hne
      cases fuel with
      | zero => rfl
      | succ fuel =>
          have hclean := validFieldLine_unbroken hvalid
          rcases prefix_line hp with hin | ⟨q, rfl, hq⟩
          · rw [completeTrailers, splitCrlf_inside hclean hin]
          · rw [completeTrailers, splitCrlf_line hclean.noLf]
            simp only
            rw [if_neg (validFieldLine_ne_nil hvalid), if_pos (validFieldLine_colon hvalid)]
            exact ih hq fun heq => hne (by rw [heq])

/-- **A body that is not there in full is not complete.** -/
theorem completeChunks_prefix (h : Chunked c d lines) : ∀ {fuel : Nat} {p : Bytes}, p <+: c → p ≠ c →
    completeChunks fuel p = false := by
  induction h with
  | last hclean hsize ht =>
      intro fuel p hp hne
      cases fuel with
      | zero => rfl
      | succ fuel =>
          rcases prefix_line hp with hin | ⟨q, rfl, hq⟩
          · rw [completeChunks, splitCrlf_inside hclean hin]
          · rw [completeChunks, splitCrlf_line hclean.noLf]
            simp only
            rw [hsize]
            exact completeTrailers_prefix ht hq fun heq => hne (by rw [heq])
  | chunk hclean hdata hsize hc ih =>
      rename_i line data c d lines
      intro fuel p hp hne
      cases fuel with
      | zero => rfl
      | succ fuel =>
          rcases prefix_line hp with hin | ⟨q, rfl, hq⟩
          · rw [completeChunks, splitCrlf_inside hclean hin]
          obtain ⟨k, hk⟩ := Nat.exists_eq_add_one_of_ne_zero (show data.length ≠ 0 from
            fun h0 => hdata (List.length_eq_zero_iff.mp h0))
          rw [completeChunks, splitCrlf_line hclean.noLf]
          simp only
          rw [hsize, hk]
          simp only
          by_cases hroom : k + 1 > q.length ∨ q.length - (k + 1) < 2
          · rw [if_pos hroom]
          rw [if_neg hroom]
          -- the prefix holds the data and its CRLF, so it ends inside the chunks behind them
          obtain ⟨s, hs⟩ := hq
          have hcrlf : (data ++ crlf).length = data.length + 2 := by
            rw [List.length_append]
            rfl
          obtain ⟨more, rfl⟩ : ∃ more, q = data ++ crlf ++ more := by
            rcases List.append_eq_append_iff.mp hs with ⟨x, hx, -⟩ | ⟨x, hx, -⟩
            · have hlen := congrArg List.length hx
              rw [hcrlf, List.length_append] at hlen
              have hnil : x = [] := List.length_eq_zero_iff.mp (by omega)
              rw [hnil, List.append_nil] at hx
              exact ⟨[], by rw [hx, List.append_nil]⟩
            · exact ⟨x, hx⟩
          have hmore : more <+: c := ⟨s, List.append_cancel_left (by rw [← List.append_assoc]; exact hs)⟩
          rw [List.append_assoc, ← hk, List.drop_left]
          refine ih hmore fun heq => hne ?_
          rw [show more = c from heq]

end Vnt.Net
