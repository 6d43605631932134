import Vnt.Net.Response
import Vnt.Net.Redirect

/-!
# `Vnt.Net.Framing`: two scanners of one header block

The lines that `http_header_has_token` sees are the pieces that LF makes of the lines `parse_response_headers` sees, up
to an empty piece. Where every LF has its CR the two see the same lines.
-/

namespace Vnt.Net

/-! ## Lines and pieces -/

/-- What LF makes of a line. -/
def lfPieces : Bytes → List Bytes
  | [] => [[]]
  | c :: rest =>
      if c = lf then [] :: lfPieces rest
      else
        match lfPieces rest with
        | [] => [[c]]
        | piece :: more => (c :: piece) :: more

/-- A line as `parse_response_headers` cuts it. -/
def NoCrlf (line : Bytes) : Prop := ∀ before after, line ≠ before ++ crlf ++ after

variable {line rest bytes block : Bytes} {lines : List Bytes}

theorem lfPieces_ne_nil (line : Bytes) : lfPieces line ≠ [] := by
  cases line with
  | nil => exact List.cons_ne_nil _ _
  | cons c rest =>
      unfold lfPieces
      split
      · exact List.cons_ne_nil _ _
      · split <;> exact List.cons_ne_nil _ _

theorem lfPieces_cons {c : UInt8} (hc : c ≠ lf) :
    ∃ piece more, lfPieces rest = piece :: more ∧ lfPieces (c :: rest) = (c :: piece) :: more := by
  cases hrest : lfPieces rest with
  | nil => exact absurd hrest (lfPieces_ne_nil rest)
  | cons piece more =>
      refine ⟨piece, more, rfl, ?_⟩
      rw [lfPieces, if_neg hc, hrest]

theorem lfPieces_whole (h : lf ∉ line) : lfPieces line = [line] := by
  induction line with
  | nil => rfl
  | cons c line ih =>
      rw [List.mem_cons, not_or] at h
      rw [lfPieces, if_neg (fun hc => h.1 hc.symm), ih h.2]

theorem endedLines_line (line rest : Bytes) : endedLines (line ++ lf :: rest) = lfPieces line ++ endedLines rest := by
  induction line with
  | nil => rfl
  | cons c line ih =>
      show endedLines (c :: (line ++ lf :: rest)) = _
      by_cases hc : c = lf
      · rw [endedLines, if_pos hc, ih, lfPieces, if_pos hc]
        rfl
      · obtain ⟨piece, more, hpieces, hline⟩ := @lfPieces_cons line c hc
        rw [endedLines, if_neg hc, ih, hline, hpieces]
        rfl

theorem NoCrlf.tail {c : UInt8} (h : NoCrlf (c :: line)) : NoCrlf line := by
  intro before after heq
  apply h (c :: before) after
  rw [heq]
  rfl

theorem dropCr_cons {c d : UInt8} (rest : Bytes) : dropCr (c :: d :: rest) = c :: dropCr (d :: rest) := by
  unfold dropCr
  rw [List.getLast?_cons_cons]
  split
  · rfl
  · rfl

/-- The CR of the line end is taken off the last piece, and no other piece has one at its end. -/
theorem lfPieces_dropCr (h : NoCrlf line) : (lfPieces (line ++ [cr])).map dropCr = lfPieces line := by
  induction line with
  | nil => rfl
  | cons c line ih =>
      have ih := ih h.tail
      show (lfPieces (c :: (line ++ [cr]))).map dropCr = _
      by_cases hc : c = lf
      · rw [lfPieces, if_pos hc, lfPieces, if_pos hc, List.map_cons, ih]
        rfl
      · obtain ⟨piece, more, hpieces, hline⟩ := @lfPieces_cons (line ++ [cr]) c hc
        obtain ⟨piece', more', hpieces', hline'⟩ := @lfPieces_cons line c hc
        rw [hpieces, hpieces', List.map_cons] at ih
        obtain ⟨hpiece, hmore⟩ := List.cons.inj ih
        rw [hline, hline', List.map_cons, hmore]
        congr 1
        cases piece with
        | nil =>
            -- the line goes on with an LF, so this byte is no CR
            have hcr : c ≠ cr := by
              intro hcr
              cases line with
              | nil =>
                  have hcr' : lfPieces ([] ++ [cr]) = [[cr]] := rfl
                  rw [hcr'] at hpieces
                  cases hpieces
              | cons d line =>
                  by_cases hd : d = lf
                  · apply h [] line
                    rw [hcr, hd]
                    rfl
                  · obtain ⟨_, _, _, hfirst⟩ := @lfPieces_cons (line ++ [cr]) d hd
                    have hpieces' : lfPieces (d :: (line ++ [cr])) = [] :: more := hpieces
                    rw [hfirst] at hpieces'
                    cases hpieces'
            have hsame : dropCr [c] = [c] := by
              unfold dropCr
              rw [if_neg]
              intro hlast
              exact hcr (Option.some.inj hlast)
            have hnil : piece' = [] := hpiece.symm
            rw [hsame, hnil]
        | cons d piece => rw [dropCr_cons, hpiece]

theorem splitCrlf_noCrlf : ∀ {bytes line rest : Bytes}, splitCrlf bytes = some (line, rest) → NoCrlf line
  | [], _, _, h => nomatch h
  | [_], _, _, h => nomatch h
  | c :: d :: more, line, rest, h => by
      rw [splitCrlf] at h
      by_cases hend : c = cr ∧ d = lf
      · rw [if_pos hend] at h
        cases h
        intro before after heq
        have hlen := congrArg List.length heq
        simp [crlf] at hlen
      · rw [if_neg hend] at h
        obtain ⟨r, hr, heq⟩ := Option.map_eq_some_iff.mp h
        cases heq
        have ih := splitCrlf_noCrlf hr
        intro before after hline
        cases before with
        | nil =>
            have hparts := List.cons.inj (show c :: r.1 = cr :: lf :: after from hline)
            have hbytes := splitCrlf_some hr
            rw [hparts.2] at hbytes
            exact hend ⟨hparts.1, (List.cons.inj hbytes).1⟩
        | cons b before => exact ih before after (List.cons.inj hline).2

/-- A block of ended lines is cut into them. -/
theorem crlfLines_spec : ∀ {fuel : Nat} {bytes : Bytes}, bytes.length ≤ fuel → bytes = [] ∨ crlf <:+ bytes →
    bytes = (crlfLines fuel bytes).flatMap (· ++ crlf) ∧ ∀ line ∈ crlfLines fuel bytes, NoCrlf line
  | 0, bytes, hfuel, _ => by
      rw [List.length_eq_zero_iff.mp (Nat.le_zero.mp hfuel)]
      exact ⟨rfl, nofun⟩
  | fuel + 1, bytes, hfuel, hend => by
      rw [crlfLines]
      cases hsplit : splitCrlf bytes with
      | none =>
          refine ⟨?_, nofun⟩
          rcases hend with rfl | ⟨before, rfl⟩
          · rfl
          · -- there is a CRLF to be found
            exfalso
            have hsome : ∀ before : Bytes, splitCrlf (before ++ crlf) ≠ none := by
              intro before
              induction before with
              | nil => exact nofun
              | cons c before ih =>
                  intro hnone
                  cases hmore : before ++ crlf with
                  | nil => exact absurd hmore (by simp [crlf])
                  | cons d more =>
                      rw [List.cons_append, hmore, splitCrlf] at hnone
                      by_cases hc : c = cr ∧ d = lf
                      · rw [if_pos hc] at hnone
                        cases hnone
                      · rw [if_neg hc, ← hmore] at hnone
                        exact ih (Option.map_eq_none_iff.mp hnone)
            exact hsome before hsplit
      | some r =>
          obtain ⟨line, rest⟩ := r
          have hbytes := splitCrlf_some hsplit
          have hlen : rest.length ≤ fuel := by
            rw [hbytes, List.length_append, List.length_append] at hfuel
            have hcrlf : crlf.length = 2 := rfl
            omega
          have hrest : rest = [] ∨ crlf <:+ rest := by
            rcases hend with rfl | hend
            · cases hsplit
            by_cases hnil : rest = []
            · exact Or.inl hnil
            · right
              rw [hbytes] at hend
              obtain ⟨before, hbefore⟩ := hend
              -- a rest of one byte would be the LF of a CR that the line's own CRLF has not
              rcases List.append_eq_append_iff.mp hbefore with ⟨x, hline, hx⟩ | ⟨x, -, hx'⟩
              · cases x with
                | nil => exact ⟨[], hx⟩
                | cons a x =>
                    cases x with
                    | nil =>
                        obtain ⟨hcr, -⟩ := List.cons.inj (show cr :: [lf] = a :: rest from hx)
                        have hlast := congrArg List.getLast? hline
                        rw [← hcr] at hlast
                        simp [crlf] at hlast
                        exact absurd hlast (by decide)
                    | cons b x =>
                        have hlen := congrArg List.length hx
                        simp [crlf] at hlen
                        exact absurd hlen.2 hnil
              · exact ⟨x, hx'.symm⟩
          obtain ⟨hmore, hall⟩ := crlfLines_spec hlen hrest
          refine ⟨?_, ?_⟩
          · simp only [List.flatMap_cons]
            rw [← hmore]
            exact hbytes
          · intro l hl
            rcases List.mem_cons.mp hl with rfl | hl
            · exact splitCrlf_noCrlf hsplit
            · exact hall l hl

/-- The lines as `http_header_has_token` sees them: the pieces up to an empty one. -/
def seenPieces (lines : List Bytes) : List Bytes := (lines.flatMap lfPieces).takeWhile (· ≠ [])

theorem endedLines_lines (h : ∀ line ∈ lines, NoCrlf line) (rest : Bytes) :
    (endedLines (lines.flatMap (· ++ crlf) ++ rest)).map dropCr =
      lines.flatMap lfPieces ++ (endedLines rest).map dropCr := by
  induction lines with
  | nil => rfl
  | cons line lines ih =>
      have hbytes : (line :: lines).flatMap (· ++ crlf) ++ rest =
          (line ++ [cr]) ++ lf :: (lines.flatMap (· ++ crlf) ++ rest) := by
        simp [crlf]
      have hrest := ih fun l hl => h l (List.mem_cons_of_mem _ hl)
      rw [hbytes, endedLines_line, List.map_append, hrest, lfPieces_dropCr (h line List.mem_cons_self),
        List.flatMap_cons, List.append_assoc]

/-- **What `http_header_has_token` finds.** -/
theorem httpHeaderHasToken_lines (h : ∀ line ∈ lines, NoCrlf line) (name token : Bytes) :
    httpHeaderHasToken (lines.flatMap (· ++ crlf) ++ crlf) name token =
      (seenPieces lines).any (fieldHasToken name token) := by
  have hlast : (endedLines crlf).map dropCr = [[]] := by decide
  unfold httpHeaderHasToken seenPieces
  rw [endedLines_lines h, hlast]
  congr 1
  induction lines.flatMap lfPieces with
  | nil => rfl
  | cons piece more ih =>
      rw [List.cons_append, List.takeWhile_cons, List.takeWhile_cons, ih]

/-- Without an LF inside a line, and without an empty line, the pieces are the lines. -/
theorem seenPieces_whole (hlf : ∀ line ∈ lines, lf ∉ line) (hne : ∀ line ∈ lines, line ≠ []) : seenPieces lines = lines := by
  have hpieces : lines.flatMap lfPieces = lines := by
    clear hne
    induction lines with
    | nil => rfl
    | cons line lines ih =>
        rw [List.flatMap_cons, lfPieces_whole (hlf line List.mem_cons_self),
          ih fun l hl => hlf l (List.mem_cons_of_mem _ hl)]
        rfl
  rw [seenPieces, hpieces, List.takeWhile_eq_self_iff]
  intro line hline
  exact decide_eq_true (hne line hline)

/-! ## Where the header block ends -/

theorem strstr_some {needle : Bytes} : ∀ {t : Bytes} {k : Nat}, strstr needle t = some k →
    ∃ after, t = t.take k ++ needle ++ after ∧ k ≤ t.length
  | [], k, h => by
      rw [strstr] at h
      split at h
      · rename_i hnil
        cases h
        exact ⟨[], by rw [hnil]; rfl, Nat.le_refl _⟩
      · cases h
  | c :: t, k, h => by
      rw [strstr] at h
      split at h
      · rename_i hstarts
        cases h
        obtain ⟨after, hafter⟩ := List.isPrefixOf_iff_prefix.mp hstarts
        exact ⟨after, hafter.symm, Nat.zero_le _⟩
      · obtain ⟨j, hj, rfl⟩ := Option.map_eq_some_iff.mp h
        obtain ⟨after, hafter, hle⟩ := strstr_some hj
        refine ⟨after, ?_, Nat.succ_le_succ hle⟩
        rw [List.take_succ_cons, List.cons_append, List.cons_append, ← hafter]

/-- There is no earlier occurrence. -/
theorem strstr_first {needle : Bytes} : ∀ {t : Bytes} {k : Nat}, strstr needle t = some k →
    ∀ before after : Bytes, t = before ++ needle ++ after → k ≤ before.length
  | [], k, h, before, after, ht => by
      rw [strstr] at h
      split at h
      · cases h
        exact Nat.zero_le _
      · cases h
  | c :: t, k, h, before, after, ht => by
      rw [strstr] at h
      split at h
      · cases h
        exact Nat.zero_le _
      · rename_i hstarts
        obtain ⟨j, hj, rfl⟩ := Option.map_eq_some_iff.mp h
        cases before with
        | nil =>
            exfalso
            apply hstarts
            rw [List.isPrefixOf_iff_prefix]
            exact ⟨after, ht.symm⟩
        | cons b before =>
            have hle := strstr_first hj before after (List.cons.inj ht).2
            exact Nat.succ_le_succ hle

/-- A header block that was accepted: its lines, what the loop over them found, and where it ends. -/
structure Accepted (raw : Bytes) (method : Option Bytes) (lines : List Bytes) (scan : HeaderScan) (h : Headers) : Prop where
  block : ∃ after, raw = lines.flatMap (· ++ crlf) ++ crlf ++ after
  length : h.headerLength = (lines.flatMap (· ++ crlf)).length + 2
  cut : ∀ line ∈ lines, NoCrlf line
  solid : ∀ line ∈ lines, line ≠ []
  scanned : lines.foldlM scanLine ⟨0, false, false⟩ = some scan
  exclusive : ¬(scan.hasLength = true ∧ scan.chunked = true)
  status : scanStatus (cString raw) = some h.statusCode
  fields : h.contentLength = scan.contentLength ∧ h.hasContentLength = scan.hasLength ∧ h.chunked = scan.chunked ∧
    h.noBody = responseNoBody method h.statusCode

/-- The lines of the header block that was accepted. -/
def acceptedLines (raw : Bytes) (h : Headers) : List Bytes := headerLines (raw.take (h.headerLength - 2))

theorem cString_append (raw : Bytes) : ∃ after, raw = cString raw ++ after :=
  ⟨raw.dropWhile (· ≠ 0), (List.takeWhile_append_dropWhile).symm⟩

theorem scanStatus_start {text : Bytes} {code : Int} (h : scanStatus text = some code) : ascii "HTTP/" <+: text := by
  unfold scanStatus at h
  obtain ⟨rest, hrest, -⟩ := Option.bind_eq_some_iff.mp h
  unfold scanLiteral at hrest
  obtain ⟨hstarts, -⟩ := Option.ite_none_right_eq_some.mp hrest
  exact List.isPrefixOf_iff_prefix.mp hstarts

/-- An empty line would be an earlier end of the block. -/
theorem lines_solid {sep : Nat} {text after : Bytes} (hsep : strstr (crlf ++ crlf) text = some sep)
    (htext : text = lines.flatMap (· ++ crlf) ++ after) (hlen : (lines.flatMap (· ++ crlf)).length = sep + 2)
    (hstart : ascii "HTTP/" <+: text) : ∀ line ∈ lines, line ≠ [] := by
  rintro line hline rfl
  obtain ⟨l₁, l₂, rfl⟩ := List.append_of_mem hline
  have hcrlf : crlf.length = 2 := rfl
  simp only [List.flatMap_append, List.flatMap_cons, List.nil_append] at htext hlen
  rcases List.eq_nil_or_concat l₁ with rfl | ⟨l, last, rfl⟩
  · obtain ⟨more, hmore⟩ := hstart
    rw [htext] at hmore
    exact absurd (List.cons.inj hmore).1 (by decide)
  · have hparts : (l.concat last).flatMap (· ++ crlf) = l.flatMap (· ++ crlf) ++ last ++ crlf := by
      rw [List.concat_eq_append, List.flatMap_append, List.flatMap_singleton, List.append_assoc]
    rw [hparts] at htext hlen
    have hfirst := strstr_first hsep (l.flatMap (· ++ crlf) ++ last) (l₂.flatMap (· ++ crlf) ++ after) (by
      rw [htext]
      simp only [List.append_assoc])
    simp only [List.length_append] at hlen hfirst
    omega

/-- **What acceptance by `parse_response_headers` says.** -/
theorem parseResponseHeaders_accepted {raw : Bytes} {method : Option Bytes} {h : Headers}
    (haccepted : parseResponseHeaders raw method = .accepted h) :
    ∃ scan, Accepted raw method (acceptedLines raw h) scan h := by
  unfold parseResponseHeaders at haccepted
  split at haccepted
  · cases haccepted
  rename_i sep hsep
  split at haccepted
  · cases haccepted
  rename_i hfits
  split at haccepted
  · cases haccepted
  rename_i code hcode
  split at haccepted
  · cases haccepted
  rename_i scan hscan
  split at haccepted
  · cases haccepted
  rename_i hexclusive
  cases haccepted
  obtain ⟨after, htext, hle⟩ := strstr_some hsep
  obtain ⟨tail, hraw⟩ := cString_append raw
  obtain ⟨pre, hpre⟩ : ∃ pre, (cString raw).take sep = pre := ⟨_, rfl⟩
  have hprelen : pre.length = sep := by
    rw [← hpre, List.length_take_of_le hle]
  rw [hpre] at htext
  have htake : ∀ more : Bytes, (pre ++ crlf ++ more).take (sep + 2) = pre ++ crlf := by
    intro more
    rw [List.take_append_of_le_length]
    · apply List.take_of_length_le
      rw [List.length_append, hprelen]
      exact Nat.le_refl _
    · rw [List.length_append, hprelen]
      exact Nat.le_refl _
  have hparts : cString raw = pre ++ crlf ++ (crlf ++ after) := by
    rw [htext]
    simp only [List.append_assoc]
  have hrawparts : raw = pre ++ crlf ++ (crlf ++ after ++ tail) := by
    rw [hraw, hparts]
    simp only [List.append_assoc]
  have hblock : raw.take (sep + 2) = pre ++ crlf := by
    rw [hrawparts]
    exact htake _
  have hlines : acceptedLines raw ⟨sep + 4, scan.contentLength, scan.hasLength, code, responseNoBody method code,
      scan.chunked⟩ = headerLines (raw.take (sep + 2)) := rfl
  obtain ⟨hflat, hcut⟩ := crlfLines_spec (Nat.le_refl _) (Or.inr ⟨pre, hblock.symm⟩)
  have hflat' : pre ++ crlf = (headerLines (raw.take (sep + 2))).flatMap (· ++ crlf) := hblock.symm.trans hflat
  rw [hlines]
  refine ⟨scan, ⟨after ++ tail, ?_⟩, ?_, hcut, ?_, hscan, hexclusive, hcode, rfl, rfl, rfl, rfl⟩
  · rw [← hflat']
    nth_rewrite 1 [hrawparts]
    simp only [List.append_assoc]
  · rw [← hflat', List.length_append, hprelen]
    rfl
  · apply lines_solid hsep _ _ (scanStatus_start hcode)
    · exact crlf ++ after
    · rw [← hflat']
      exact hparts
    · rw [← hflat', List.length_append, hprelen]
      rfl

/-! ## Names of fields -/

theorem splitColon_name {name : Bytes} (hname : colon ∉ name) (value : Bytes) :
    splitColon (name ++ colon :: value) = some (name, value) := by
  induction name with
  | nil => rfl
  | cons c name ih =>
      rw [List.mem_cons, not_or] at hname
      rw [List.cons_append, splitColon, if_neg (fun hc => hname.1 hc.symm), ih hname.2]
      rfl

theorem splitColon_value {found value name : Bytes} (hsplit : splitColon line = some (found, value))
    (hsame : fold found = fold name) : value = line.drop (name.length + 1) := by
  have hlen : name.length + 1 = (found ++ [colon]).length := by
    rw [List.length_append, length_of_fold hsame]
    rfl
  have hline : line = (found ++ [colon]) ++ value := by
    rw [splitColon_some hsplit, List.append_assoc]
    rfl
  rw [hlen, hline, List.drop_left]

/-- A line that starts with a name and its colon is a field of that name. -/
theorem startsFold_field (line : Bytes) {name : Bytes} (hname : colon ∉ name) :
    startsFold line (name ++ [colon]) = true ↔
      ∃ found, splitColon line = some (found, line.drop (name.length + 1)) ∧ fold found = fold name := by
  constructor
  · intro h
    have hfold := sameFold_iff.mp h
    rw [List.length_append, List.length_singleton, fold_append] at hfold
    have hlen : name.length + 1 ≤ line.length := by
      have hcount := congrArg List.length hfold
      rw [length_fold, List.length_take, List.length_append, length_fold, length_fold, List.length_singleton] at hcount
      omega
    have htake : (line.take (name.length + 1)).length = name.length + 1 := List.length_take_of_le hlen
    obtain ⟨found, last, hfound⟩ : ∃ found last, line.take (name.length + 1) = found ++ [last] := by
      rcases List.eq_nil_or_concat (line.take (name.length + 1)) with hnil | ⟨found, last, hlast⟩
      · rw [hnil] at htake
        cases htake
      · exact ⟨found, last, by rw [hlast, List.concat_eq_append]⟩
    rw [hfound, fold_append] at hfold
    obtain ⟨hsame, hlast⟩ := List.append_inj' hfold rfl
    have hcolon : last = colon := (lower_eq_iff (by decide)).mp (List.cons.inj hlast).1
    have hnone : colon ∉ found := by
      rw [← mem_fold_iff (by decide), hsame, mem_fold_iff (by decide)]
      exact hname
    refine ⟨found, ?_, hsame⟩
    nth_rewrite 1 [← List.take_append_drop (name.length + 1) line]
    rw [hfound, hcolon, List.append_assoc]
    exact splitColon_name hnone _
  · rintro ⟨found, hsplit, hsame⟩
    have hline := splitColon_some hsplit
    have hparts : line = (found ++ [colon]) ++ line.drop (name.length + 1) := by
      rw [List.append_assoc]
      exact hline
    apply startsFold_of_name hparts
    rw [fold_append, fold_append, hsame]

/-- The chunked transfer coding in a line. -/
def chunkedField (line : Bytes) : Bool := fieldHasToken (ascii "Transfer-Encoding") (ascii "chunked") line

theorem httpValueHasToken_nil (token : Bytes) : httpValueHasToken [] token = false := rfl

theorem chunkedField_iff : chunkedField line = true ↔ line.length > 18 ∧
    startsFold line (ascii "Transfer-Encoding:") = true ∧ httpValueHasToken (line.drop 18) (ascii "chunked") = true := by
  have hname : colon ∉ ascii "Transfer-Encoding" := by decide
  have hstart := startsFold_field line hname
  change startsFold line (ascii "Transfer-Encoding:") = true ↔ _ at hstart
  rw [hstart]
  unfold chunkedField fieldHasToken
  constructor
  · intro h
    split at h
    · cases h
    rename_i found value hsplit
    rw [Bool.and_eq_true, sameFold_iff] at h
    have hvalue : value = line.drop 18 := splitColon_value hsplit h.1
    rw [hvalue] at hsplit h
    refine ⟨?_, ⟨found, hsplit, h.1⟩, h.2⟩
    by_contra hshort
    rw [List.drop_eq_nil_of_le (by omega), httpValueHasToken_nil] at h
    cases h.2
  · rintro ⟨-, ⟨found, hsplit, hsame⟩, htoken⟩
    rw [hsplit]
    show (sameFold found (ascii "Transfer-Encoding") && httpValueHasToken (line.drop 18) (ascii "chunked")) = true
    rw [Bool.and_eq_true, sameFold_iff]
    exact ⟨hsame, htoken⟩

theorem lengthField_iff : isField "Content-Length" line = true ↔ startsFold line (ascii "Content-Length:") = true := by
  have hname : colon ∉ ascii "Content-Length" := by decide
  have hstart := startsFold_field line hname
  change startsFold line (ascii "Content-Length:") = true ↔ _ at hstart
  rw [hstart]
  unfold isField fieldName
  rw [sameFold_iff]
  constructor
  · intro h
    cases hsplit : splitColon line with
    | none =>
        rw [hsplit] at h
        exact absurd h (by decide)
    | some r =>
        obtain ⟨found, value⟩ := r
        rw [hsplit] at h
        have hsame : fold found = fold (ascii "Content-Length") := h
        refine ⟨found, ?_, hsame⟩
        rw [splitColon_value hsplit hsame]
  · rintro ⟨found, hsplit, hsame⟩
    rw [hsplit]
    exact hsame

/-! ## Lengths -/

theorem digitsFold (digits : Bytes) (h : ∀ c ∈ digits, isDigit c = true) (n : Nat) :
    digits.foldlM (fun n c => if 48 ≤ c ∧ c ≤ 57 then some (10 * n + (c.toNat - 48)) else none) n =
      some (digits.foldl (fun n c => 10 * n + (c.toNat - 48)) n) := by
  induction digits generalizing n with
  | nil => rfl
  | cons c digits ih =>
      have hc : 48 ≤ c ∧ c ≤ 57 := of_decide_eq_true (h c List.mem_cons_self)
      rw [List.foldlM_cons, if_pos hc]
      exact ih (fun d hd => h d (List.mem_cons_of_mem _ hd)) _

theorem decimalValue_digits {digits : Bytes} (hne : digits ≠ []) (h : ∀ c ∈ digits, isDigit c = true) :
    decimalValue digits = some (digitsValue digits) := by
  unfold decimalValue
  rw [if_neg hne]
  exact digitsFold digits h 0

theorem blank_not_digit {c : UInt8} (h : isDigit c = true) : blank c = false := by
  have hc : 48 ≤ c ∧ c ≤ 57 := of_decide_eq_true h
  unfold blank
  rw [decide_eq_false_iff_not]
  rintro (rfl | rfl)
  · exact absurd hc (by decide)
  · exact absurd hc (by decide)

theorem rdropWhile_blanks {digits blanks : Bytes} (hdigits : ∀ c ∈ digits, isDigit c = true)
    (hblanks : ∀ c ∈ blanks, blank c = true) : (digits ++ blanks).rdropWhile blank = digits := by
  have hdrop : (digits ++ blanks).rdropWhile blank = digits.rdropWhile blank := by
    unfold List.rdropWhile
    rw [List.reverse_append, List.dropWhile_append_of_pos]
    intro c hc
    exact hblanks c (List.mem_reverse.mp hc)
  rw [hdrop, List.rdropWhile_eq_self_iff]
  intro hne hblank
  rw [blank_not_digit (hdigits _ (List.getLast_mem hne))] at hblank
  cases hblank

/-- A value that passes the tests is digits with blanks behind them. -/
theorem lengthValue_digits {value : Bytes} (hne : value ≠ []) (hhead : value.dropWhile blank = value)
    (hall : ∀ c ∈ value.takeWhile fun c => ¬blank c, isDigit c = true)
    (htail : (value.drop (value.takeWhile isDigit).length).dropWhile blank = []) :
    decimalValue (value.rdropWhile blank) = some (digitsValue (value.takeWhile isDigit)) := by
  have hdigits : ∀ c ∈ value.takeWhile isDigit, isDigit c = true := fun c hc => List.mem_takeWhile_imp hc
  have hparts : value = value.takeWhile isDigit ++ value.drop (value.takeWhile isDigit).length :=
    (List.prefix_iff_eq_append.mp (List.takeWhile_prefix _)).symm
  have hblanks := List.dropWhile_eq_nil_iff.mp htail
  have hdigits_ne : value.takeWhile isDigit ≠ [] := by
    cases value with
    | nil => exact absurd rfl hne
    | cons c rest =>
        have hc : blank c = false := by
          by_contra hblank
          rw [Bool.not_eq_false] at hblank
          rw [List.dropWhile_cons, if_pos hblank] at hhead
          have hlen := (List.dropWhile_suffix blank (l := rest)).length_le
          rw [hhead, List.length_cons] at hlen
          omega
        have hmem : c ∈ (c :: rest).takeWhile fun c => ¬blank c := by
          rw [List.takeWhile_cons, if_pos (by rw [hc]; rfl)]
          exact List.mem_cons_self
        rw [List.takeWhile_cons, if_pos (hall c hmem)]
        exact List.cons_ne_nil _ _
  nth_rewrite 1 [hparts]
  rw [rdropWhile_blanks hdigits hblanks, decimalValue_digits hdigits_ne hdigits]

theorem not_both_starts (hlength : startsFold line (ascii "Content-Length:") = true)
    (hchunked : startsFold line (ascii "Transfer-Encoding:") = true) : False := by
  cases line with
  | nil => exact absurd hlength (by decide)
  | cons c rest =>
      have hc : lower c = 99 := (List.cons.inj (sameFold_iff.mp hlength)).1
      have ht : lower c = 116 := (List.cons.inj (sameFold_iff.mp hchunked)).1
      rw [hc] at ht
      exact absurd ht (by decide)

/-- **What the loop makes of a line.** -/
theorem scanLine_cases {scan scan' : HeaderScan} (h : scanLine scan line = some scan') :
    (isField "Content-Length" line = true ∧ line.length > 15 ∧ ∃ n, decimalValue (fieldValue line) = some n ∧
      (scan.hasLength = true → scan.contentLength = min n (2 ^ 64 - 1)) ∧
      scan' = { scan with contentLength := min n (2 ^ 64 - 1), hasLength := true } ∧ chunkedField line = false) ∨
    ((isField "Content-Length" line = true → line.length ≤ 15) ∧ scan' = { scan with chunked := scan.chunked || chunkedField line }) := by
  unfold scanLine at h
  by_cases hlength : line.length > 15 ∧ startsFold line (ascii "Content-Length:") = true
  · left
    rw [if_pos hlength] at h
    refine ⟨lengthField_iff.mpr hlength.2, hlength.1, ?_⟩
    simp only at h
    obtain ⟨value, hvalue⟩ : ∃ value, (line.drop 15).dropWhile blank = value := ⟨_, rfl⟩
    rw [hvalue] at h
    by_cases hnil : value = []
    · rw [if_pos hnil] at h
      cases h
    rw [if_neg hnil] at h
    by_cases hall : (value.takeWhile fun c => ¬blank c).all isDigit = false
    · rw [if_pos hall] at h
      cases h
    rw [if_neg hall] at h
    rw [Bool.not_eq_false, List.all_eq_true] at hall
    by_cases htail : (value.drop (value.takeWhile isDigit).length).dropWhile blank ≠ []
    · rw [if_pos htail] at h
      cases h
    rw [if_neg htail] at h
    rw [ne_eq, not_not] at htail
    by_cases hclash : scan.hasLength = true ∧ scan.contentLength ≠ strtoull (value.takeWhile isDigit)
    · rw [if_pos hclash] at h
      cases h
    rw [if_neg hclash] at h
    cases h
    have hname : colon ∉ ascii "Content-Length" := by decide
    obtain ⟨found, hsplit, -⟩ := (startsFold_field line hname).mp hlength.2
    have hfield : fieldValue line = value.rdropWhile blank := by
      unfold fieldValue
      rw [hsplit, ← hvalue]
      rfl
    have hhead : value.dropWhile blank = value := by
      rw [← hvalue, List.dropWhile_idempotent]
    refine ⟨_, ?_, ?_, rfl, ?_⟩
    · rw [hfield]
      exact lengthValue_digits hnil hhead hall htail
    · intro hhas
      by_contra hne
      exact hclash ⟨hhas, hne⟩
    · rw [← Bool.not_eq_true, chunkedField_iff]
      rintro ⟨-, hstart, -⟩
      exact not_both_starts hlength.2 hstart
  · right
    rw [if_neg hlength] at h
    have hshort : isField "Content-Length" line = true → line.length ≤ 15 := by
      intro hfield
      by_contra hlong
      exact hlength ⟨by omega, lengthField_iff.mp hfield⟩
    refine ⟨hshort, ?_⟩
    by_cases hchunked : chunkedField line = true
    · rw [if_pos (chunkedField_iff.mp hchunked)] at h
      cases h
      rw [hchunked, Bool.or_true]
    · rw [if_neg (fun hc => hchunked (chunkedField_iff.mpr hc))] at h
      cases h
      rw [Bool.not_eq_true] at hchunked
      rw [hchunked, Bool.or_false]

/-- **What the loop makes of the block**: the coding is found where a line has it, and every length that is seen is the
    one that is kept. -/
theorem scanLines_spec : ∀ {lines : List Bytes} {scan scan' : HeaderScan}, lines.foldlM scanLine scan = some scan' →
    scan'.chunked = (scan.chunked || lines.any chunkedField) ∧
    (scan.hasLength = true → scan'.hasLength = true ∧ scan'.contentLength = scan.contentLength) ∧
    (scan.contentLength < 2 ^ 64 → scan'.contentLength < 2 ^ 64) ∧
    ∀ line ∈ lines, isField "Content-Length" line = true → line.length > 15 →
      scan'.hasLength = true ∧ ∃ n, decimalValue (fieldValue line) = some n ∧ scan'.contentLength = min n (2 ^ 64 - 1)
  | [], scan, scan', h => by
      cases h
      exact ⟨by rw [List.any_nil, Bool.or_false], fun hhas => ⟨hhas, rfl⟩, id, nofun⟩
  | line :: lines, scan, scan', h => by
      rw [List.foldlM_cons] at h
      obtain ⟨next, hnext, hrest⟩ := Option.bind_eq_some_iff.mp h
      obtain ⟨hchunked, hkept, hbound, hlengths⟩ := scanLines_spec hrest
      rcases scanLine_cases hnext with ⟨hfield, hlong, n, hn, hsame, rfl, hno⟩ | ⟨hshort, rfl⟩
      · have hkept' := hkept rfl
        refine ⟨?_, ?_, ?_, ?_⟩
        · rw [hchunked, List.any_cons, hno, Bool.false_or]
        · intro hhas
          exact ⟨hkept'.1, by rw [hkept'.2, hsame hhas]⟩
        · intro _
          rw [hkept'.2]
          show min n (2 ^ 64 - 1) < 2 ^ 64
          omega
        · intro l hl hfield' hlong'
          rcases List.mem_cons.mp hl with rfl | hl
          · exact ⟨hkept'.1, n, hn, hkept'.2⟩
          · exact hlengths l hl hfield' hlong'
      · refine ⟨?_, hkept, hbound, ?_⟩
        · rw [hchunked, List.any_cons, Bool.or_assoc]
        · intro l hl hfield hlong
          rcases List.mem_cons.mp hl with rfl | hl
          · exact absurd (hshort hfield) (by omega)
          · exact hlengths l hl hfield hlong

/-! ## Framing -/

/-- What the scanners have to say of each other about a header block that was accepted. -/
structure FramingAgrees (raw : Bytes) (h : Headers) : Prop where
  /-- `http_header_has_token` finds the chunked coding when `parse_response_headers` has seen it. -/
  chunked : httpHeaderHasToken (raw.take h.headerLength) (ascii "Transfer-Encoding") (ascii "chunked") = h.chunked
  /-- A length and the chunked coding are never both in force. -/
  exclusive : ¬(h.hasContentLength = true ∧
    httpHeaderHasToken (raw.take h.headerLength) (ascii "Transfer-Encoding") (ascii "chunked") = true)
  /-- The length that is reported is the number in every `Content-Length` line. -/
  length : ∀ line ∈ acceptedLines raw h, isField "Content-Length" line = true →
    h.hasContentLength = true ∧ decimalValue (fieldValue line) = some h.contentLength

/-- A bare LF neither brings in the chunked coding nor takes it away. -/
structure BareLfHarmless (lines : List Bytes) : Prop where
  smuggled : ∀ piece ∈ seenPieces lines, chunkedField piece = true → ∃ line ∈ lines, chunkedField line = true
  hidden : ∀ line ∈ lines, chunkedField line = true → ∃ piece ∈ seenPieces lines, chunkedField piece = true

/-- Every `Content-Length` line has a number that a `size_t` holds. -/
def LengthsFit (lines : List Bytes) : Prop :=
  ∀ line ∈ lines, isField "Content-Length" line = true → ∃ n < 2 ^ 64, decimalValue (fieldValue line) = some n

variable {raw : Bytes} {method : Option Bytes} {h : Headers} {scan : HeaderScan}

theorem Accepted.token (haccepted : Accepted raw method lines scan h) (name token : Bytes) :
    httpHeaderHasToken (raw.take h.headerLength) name token = (seenPieces lines).any (fieldHasToken name token) := by
  obtain ⟨after, hraw⟩ := haccepted.block
  have htake : raw.take h.headerLength = lines.flatMap (· ++ crlf) ++ crlf := by
    rw [haccepted.length, hraw]
    exact List.take_left' (by rw [List.length_append]; rfl)
  rw [htake, httpHeaderHasToken_lines haccepted.cut]

/-- Where every LF of the block has its CR, no LF does harm. -/
theorem Accepted.harmless (haccepted : Accepted raw method lines scan h) (hlf : ∀ line ∈ lines, lf ∉ line) :
    BareLfHarmless lines := by
  have hseen := seenPieces_whole hlf haccepted.solid
  constructor
  · intro piece hpiece hchunked
    rw [hseen] at hpiece
    exact ⟨piece, hpiece, hchunked⟩
  · intro line hline hchunked
    rw [hseen]
    exact ⟨line, hline, hchunked⟩

theorem Accepted.chunked_iff (haccepted : Accepted raw method lines scan h) :
    h.chunked = true ↔ ∃ line ∈ lines, chunkedField line = true := by
  rw [haccepted.fields.2.2.1, (scanLines_spec haccepted.scanned).1, Bool.false_or, List.any_eq_true]

theorem Accepted.token_iff (haccepted : Accepted raw method lines scan h) :
    httpHeaderHasToken (raw.take h.headerLength) (ascii "Transfer-Encoding") (ascii "chunked") = true ↔
      ∃ piece ∈ seenPieces lines, chunkedField piece = true := by
  rw [haccepted.token, List.any_eq_true]
  rfl

/-- A response with a length. -/
def lengthResponse : Bytes := ascii "HTTP/1.1 200 OK\r\nContent-Length: 5\r\n\r\nhello"

/-- A response whose coding stands behind a bare LF. -/
def smuggledResponse : Bytes :=
  ascii "HTTP/1.1 200 OK\r\nContent-Length: 5\r\nX: a\nTransfer-Encoding: chunked\r\n\r\nhello"

end Vnt.Net
