import Vnt.StdLib.Strings
import Vnt.StdLib.Validate

/-!
# `StdLib.Config` — values in INI texts (`config.vnt`)

`get`, `has_key` and `section_exists` walk over a text line by line. The loop that cuts out a line is the same in all three, and
the first two look at the line in the same way: they are one walk that returns different things at the entry it looks for.
-/

namespace Vnt.StdLib

open Lib (Turn)
open Net (Bytes cr lf)

/-! ## `trim` (`string.vnt`) -/

/-- `while start < end { … }` -/
def trimStartTurn (value : Bytes) (stop start : Nat) : Hosted (Turn Nat Nat) :=
  if start < stop then do
    let ch ← stringGet value start
    if blankChar ch then pure (.next (start + 1)) else pure (.done start)
  else pure (.done start)

/-- `while end > start { … }` -/
def trimEndTurn (value : Bytes) (start stop : Nat) : Hosted (Turn Nat Nat) :=
  if stop > start then do
    let ch ← stringGet value ((stop : Int) - 1)
    if blankChar ch then pure (.next (stop - 1)) else pure (.done stop)
  else pure (.done stop)

def trim (value : Bytes) : Hosted Bytes := do
  let start ← whileLoop (value.length + 1) (trimStartTurn value value.length) 0
  let stop ← whileLoop (value.length + 1) (trimEndTurn value start) value.length
  slice value start stop

/-! ## Parts of a line -/

/-- `find_char`, and one turn of its loop. -/
def findCharTurn (value : Bytes) (target : UInt8) (i : Nat) : Hosted (Turn Nat Int) :=
  if i < value.length then do
    let ch ← stringGet value i
    if ch = target then pure (.done i) else pure (.next (i + 1))
  else pure (.done (-1))

def findChar (value : Bytes) (target : UInt8) : Hosted Int := whileLoop (value.length + 1) (findCharTurn value target) 0

/-- `prefix(value, count)` -/
def iniPrefix (value : Bytes) (count : Nat) : Hosted Bytes := slice value 0 count

/-- `suffix(value, start)` -/
def iniSuffix (value : Bytes) (start : Nat) : Hosted Bytes := slice value start value.length

def sliceInner (value : Bytes) : Hosted Bytes := slice value 1 (value.length - 1)

def unquote (value : Bytes) : Hosted Bytes := slice value 1 (value.length - 1)

/-! ## Lines of a text -/

/-- `while end < size && text[end] != "\n" && text[end] != "\r" { end += 1 }` -/
def lineEndTurn (text : Bytes) (stop : Nat) : Hosted (Turn Nat Nat) :=
  if stop < text.length then do
    let ch ← stringGet text stop
    if ch ≠ lf ∧ ch ≠ cr then pure (.next (stop + 1)) else pure (.done stop)
  else pure (.done stop)

/-- `while i < end { if text[i] != "\r" { line = line + text[i] } … }` -/
def lineTurn (text : Bytes) (stop : Nat) : Bytes × Nat → Hosted (Turn (Bytes × Nat) Bytes)
  | (line, i) =>
      if i < stop then do
        let ch ← stringGet text i
        if ch ≠ cr then pure (.next (line ++ [ch], i + 1)) else pure (.next (line, i + 1))
      else pure (.done line)

/-- The line at `start`, trimmed, and its `end`. -/
def readLine (text : Bytes) (start : Nat) : Hosted (Bytes × Nat) := do
  let stop ← whileLoop (text.length + 1) (lineEndTurn text) start
  let line ← whileLoop (text.length + 1) (lineTurn text stop) ([], start)
  let line ← trim line
  pure (line, stop)

/-- `start = end + 1`, and one more between `"\r"` and what follows `"\n"`. -/
def nextStart (text : Bytes) (stop : Nat) : Hosted Nat :=
  if stop < text.length then do
    let ch ← stringGet text stop
    if ch = cr ∧ stop + 1 < text.length then do
      let after ← stringGet text ((stop + 1 : Nat) : Int)
      if after = lf then pure (stop + 2) else pure (stop + 1)
    else pure (stop + 1)
  else pure (stop + 1)

/-! ## `get` and `has_key` -/

/-- `len(line) > 0 && line[0] != "#" && line[0] != ";"` -/
def hasContent (line : Bytes) : Hosted Bool :=
  if line.length > 0 then do
    let ch ← stringGet line 0
    pure (ch ≠ 35 ∧ ch ≠ 59)
  else pure false

/-- `line[0] == "[" && line[len(line) - 1] == "]"` -/
def isHeader (line : Bytes) : Hosted Bool := do
  let first ← stringGet line 0
  if first = 91 then do
    let last ← stringGet line ((line.length : Int) - 1)
    pure (last = 93)
  else pure false

/-- `strutil.trim(slice_inner(line))` -/
def sectionName (line : Bytes) : Hosted Bytes := do
  let inner ← sliceInner line
  trim inner

/-- `equals = find_char(line, "=")` and what is done with it: whether the line has the key, and where its value begins. -/
def keyEquals (key line : Bytes) : Hosted (Option Nat) := do
  let equals ← findChar line 61
  if equals > 0 then do
    let before ← iniPrefix line equals.toNat
    let foundKey ← trim before
    if foundKey = key then pure (some equals.toNat) else pure none
  else pure none

/-- What a trimmed line does: it names the section of the lines behind it, or it is the entry, and `found` is returned. -/
def scanLine {ρ : Type} (found : Bytes → Nat → Hosted ρ) (sect key current line : Bytes) : Hosted (Turn Bytes ρ) := do
  if ← hasContent line then
    if ← isHeader line then do
      let name ← sectionName line
      pure (.next name)
    else if current = sect then do
      match ← keyEquals key line with
      | some equals => do
          let result ← found line equals
          pure (.done result)
      | none => pure (.next current)
    else pure (.next current)
  else pure (.next current)

/-- `while start < size { … }`, on `current_section` and `start`. -/
def scanTurn {ρ : Type} (found : Bytes → Nat → Hosted ρ) (missing : ρ) (text sect key : Bytes) :
    Bytes × Nat → Hosted (Turn (Bytes × Nat) ρ)
  | (current, start) =>
      if start < text.length then do
        let (line, stop) ← readLine text start
        match ← scanLine found sect key current line with
        | .next current => do
            let start ← nextStart text stop
            pure (.next (current, start))
        | .done result => pure (.done result)
      else pure (.done missing)

/-- `len(value) >= 2 && value[0] == "\"" && value[len(value) - 1] == "\""` -/
def isQuoted (value : Bytes) : Hosted Bool :=
  if value.length ≥ 2 then do
    let first ← stringGet value 0
    if first = 34 then do
      let last ← stringGet value ((value.length : Int) - 1)
      pure (last = 34)
    else pure false
  else pure false

/-- `value = strutil.trim(suffix(line, equals + 1))`, without its quotes. -/
def entryValue (line : Bytes) (equals : Nat) : Hosted Val := do
  let after ← iniSuffix line (equals + 1)
  let value ← trim after
  if ← isQuoted value then do
    let inner ← unquote value
    pure (.str inner)
  else pure (.str value)

def get (text sect key : Bytes) (defaultValue : Val) : Hosted Val :=
  whileLoop (text.length + 1) (scanTurn entryValue defaultValue text sect key) ([], 0)

def hasKey (text sect key : Bytes) : Hosted Bool :=
  whileLoop (text.length + 1) (scanTurn (fun _ _ => pure true) false text sect key) ([], 0)

/-! ## `section_exists` -/

/-- `len(line) > 1 && line[0] == "[" && line[len(line) - 1] == "]"`, and the name in it. -/
def sectionLine (sect line : Bytes) : Hosted Bool := do
  if line.length > 1 then
    if ← isHeader line then do
      let name ← sectionName line
      pure (name = sect)
    else pure false
  else pure false

def sectionTurn (text sect : Bytes) (start : Nat) : Hosted (Turn Nat Bool) :=
  if start < text.length then do
    let (line, stop) ← readLine text start
    if ← sectionLine sect line then pure (.done true)
    else do
      let start ← nextStart text stop
      pure (.next start)
  else pure (.done false)

def sectionExists (text sect : Bytes) : Hosted Bool := whileLoop (text.length + 1) (sectionTurn text sect) 0

/-!
## The lines of an INI text

A line ends with LF, CR LF or CR. `unixEnds` writes all of them as LF, so that the lines are what stands between the LFs; the
walk of `config.vnt` cuts out these lines one after another (`readLine_ok`, `nextStart_ok`, `iniLines_scan`).
-/

variable {value text rest : Bytes} {start stop : Nat}

/-! ## `trim` -/

/-- `value` without blanks at its ends. -/
def trimmed (value : Bytes) : Bytes := (value.dropWhile blankChar).rdropWhile blankChar

theorem drop_length_takeWhile {α : Type} (p : α → Bool) (l : List α) : l.drop (l.takeWhile p).length = l.dropWhile p := by
  have hsplit := @List.takeWhile_append_dropWhile _ p l
  have hdrop : (l.takeWhile p ++ l.dropWhile p).drop (l.takeWhile p).length = l.dropWhile p := List.drop_left
  rwa [hsplit] at hdrop

/-- The first blanks are passed. -/
theorem trimStart_ok (value : Bytes) : ∃ start, whileLoop (value.length + 1) (trimStartTurn value value.length) 0 = .ok start ∧
    start ≤ value.length ∧ value.drop start = value.dropWhile blankChar := by
  apply @whileLoop_total _ _ (trimStartTurn value value.length) (value.length + 1) 0
    (fun i => i ≤ value.length ∧ (value.drop i).dropWhile blankChar = value.dropWhile blankChar)
    (fun i => i ≤ value.length ∧ value.drop i = value.dropWhile blankChar) (fun i => value.length - i) ?_
    ⟨Nat.zero_le _, rfl⟩ (Nat.lt_succ_of_le (Nat.sub_le _ _))
  rintro i ⟨hi, hsame⟩
  by_cases hlt : i < value.length
  · have hcons : value.drop i = value[i] :: value.drop (i + 1) := List.drop_eq_getElem_cons hlt
    rw [hcons] at hsame
    rw [trimStartTurn, if_pos hlt, stringGet_ok hlt, ok_bind]
    by_cases hblank : blankChar value[i] = true
    · rw [if_pos hblank]
      rw [List.dropWhile_cons_of_pos hblank] at hsame
      exact ⟨_, rfl, ⟨hlt, hsame⟩, Nat.sub_lt_sub_left hlt (Nat.lt_succ_self i)⟩
    · rw [if_neg hblank]
      rw [List.dropWhile_cons_of_neg hblank] at hsame
      exact ⟨_, rfl, hi, hcons.trans hsame⟩
  · have hend : i = value.length := Nat.le_antisymm hi (Nat.le_of_not_lt hlt)
    rw [trimStartTurn, if_neg hlt]
    refine ⟨_, rfl, hi, ?_⟩
    rw [← hsame, hend, List.drop_length]
    rfl

/-- So are the last ones, down to what the first loop left. -/
theorem trimEnd_ok (hstart : start ≤ value.length) :
    ∃ stop, whileLoop (value.length + 1) (trimEndTurn value start) value.length = .ok stop ∧ start ≤ stop ∧
      stop ≤ value.length ∧ (value.take stop).drop start = (value.drop start).rdropWhile blankChar := by
  apply @whileLoop_total _ _ (trimEndTurn value start) (value.length + 1) value.length
    (fun i => start ≤ i ∧ i ≤ value.length ∧
      ((value.take i).drop start).rdropWhile blankChar = (value.drop start).rdropWhile blankChar)
    (fun i => start ≤ i ∧ i ≤ value.length ∧ (value.take i).drop start = (value.drop start).rdropWhile blankChar)
    (fun i => i) ?_ ⟨hstart, Nat.le_refl _, by rw [List.take_length]⟩ (Nat.lt_succ_self _)
  rintro i ⟨hlow, hhigh, hsame⟩
  by_cases hlt : i > start
  · obtain ⟨j, rfl⟩ : ∃ j, i = j + 1 := ⟨i - 1, by omega⟩
    have hj : j < value.length := hhigh
    have hback : ((j + 1 : ℕ) : Int) - 1 = (j : ℕ) := by omega
    have hlast : (value.take (j + 1)).drop start = (value.take j).drop start ++ [value[j]] := by
      rw [List.take_succ_eq_append_getElem hj, List.drop_append_of_le_length (by rw [List.length_take]; omega)]
    rw [hlast] at hsame
    rw [trimEndTurn, if_pos hlt, hback, stringGet_ok hj, ok_bind]
    by_cases hblank : blankChar value[j] = true
    · rw [if_pos hblank]
      rw [List.rdropWhile_concat_pos _ _ _ hblank] at hsame
      exact ⟨_, rfl, ⟨Nat.le_of_lt_succ hlt, Nat.le_of_lt hj, hsame⟩, Nat.lt_succ_self j⟩
    · rw [if_neg hblank]
      rw [List.rdropWhile_concat_neg _ _ _ hblank] at hsame
      exact ⟨_, rfl, hlow, hhigh, hlast.trans hsame⟩
  · have hend : i = start := Nat.le_antisymm (Nat.le_of_not_lt hlt) hlow
    rw [trimEndTurn, if_neg hlt]
    have hempty : (value.take i).drop start = [] := List.drop_of_length_le (by rw [List.length_take]; omega)
    rw [hempty] at hsame
    exact ⟨_, rfl, hlow, hhigh, hempty.trans hsame⟩

theorem trim_ok (value : Bytes) : trim value = .ok (trimmed value) := by
  obtain ⟨start, hfirst, hstart, hdrop⟩ := trimStart_ok value
  obtain ⟨stop, hsecond, hle, hstop, hslice⟩ := trimEnd_ok hstart
  rw [trim, hfirst, ok_bind, hsecond, ok_bind, slice_ok hle hstop, hslice, hdrop]
  rfl

/-! ## Cutting out a line -/

/-- What a line consists of. -/
def inLine (ch : UInt8) : Bool := ch ≠ lf ∧ ch ≠ cr

/-- `text` with every end of a line written as LF. -/
def unixEnds : Bytes → Bytes
  | [] => []
  | ch :: rest =>
      if ch = cr then if rest.head? = some lf then unixEnds rest else lf :: unixEnds rest
      else ch :: unixEnds rest

/-- The lines of a text. -/
def iniLines (text : Bytes) : List Bytes := (unixEnds text).splitOnP fun ch => ch = lf

/-- What stands behind the end of a line. -/
def behindEnd : Bytes → Bytes
  | [] => []
  | ch :: rest => if ch = cr ∧ rest.head? = some lf then rest.tail else rest

theorem unixEnds_line {line : Bytes} (hline : ∀ ch ∈ line, inLine ch = true) (rest : Bytes) :
    unixEnds (line ++ rest) = line ++ unixEnds rest := by
  induction line with
  | nil => rfl
  | cons ch more ih =>
      have hch : ch ≠ cr := (of_decide_eq_true (hline ch List.mem_cons_self)).2
      rw [List.cons_append, unixEnds, if_neg hch, ih fun x hx => hline x (List.mem_cons_of_mem _ hx)]
      rfl

theorem unixEnds_end {ch : UInt8} (hch : inLine ch = false) (rest : Bytes) :
    unixEnds (ch :: rest) = lf :: unixEnds (behindEnd (ch :: rest)) := by
  rw [behindEnd]
  by_cases hcr : ch = cr
  · rw [unixEnds, if_pos hcr]
    by_cases hlf : rest.head? = some lf
    · obtain ⟨tail, rfl⟩ := List.head?_eq_some_iff.mp hlf
      rw [if_pos hlf, if_pos ⟨hcr, hlf⟩, unixEnds, if_neg (by decide)]
      rfl
    · rw [if_neg hlf, if_neg (fun h => hlf h.2)]
  · have hlf : ch = lf := by
      by_contra hne
      exact absurd (hch.symm.trans (decide_eq_true ⟨hne, hcr⟩)) Bool.false_ne_true
    rw [unixEnds, if_neg hcr, if_neg (fun h => hcr h.1), hlf]

/-- The first line, and the lines behind it. -/
theorem iniLines_scan (rest : Bytes) : iniLines rest = rest.takeWhile inLine :: if rest.dropWhile inLine = [] then [] else
    iniLines (behindEnd (rest.dropWhile inLine)) := by
  have hline : ∀ ch ∈ rest.takeWhile inLine, inLine ch = true := fun ch hch => List.mem_takeWhile_imp hch
  have hnone : ∀ ch ∈ rest.takeWhile inLine, decide (ch = lf) = false := fun ch hch =>
    decide_eq_false (of_decide_eq_true (hline ch hch)).1
  have hsplit := (@List.takeWhile_append_dropWhile _ inLine rest).symm
  have htext := congrArg iniLines hsplit
  rw [htext, iniLines, unixEnds_line hline]
  cases hafter : rest.dropWhile inLine with
  | nil =>
      rw [if_pos rfl, unixEnds, List.append_nil, List.splitOnP_eq_singleton hnone]
  | cons ch tail =>
      have hch : inLine ch = false := by
        have hhead := @List.head?_dropWhile_not _ inLine rest
        rw [hafter] at hhead
        simpa using hhead
      rw [if_neg (List.cons_ne_nil _ _), unixEnds_end hch,
        List.splitOnP_append_cons_of_forall_mem hnone lf (decide_eq_true rfl)]
      rfl

/-! ## The loops that cut -/

theorem lineEnd_ok (start : Nat) : whileLoop (text.length + 1) (lineEndTurn text) start =
    .ok (start + ((text.drop start).takeWhile inLine).length) := by
  refine @whileLoop_eq _ _ (lineEndTurn text) (text.length + 1) start (fun _ => True)
    (fun i => i + ((text.drop i).takeWhile inLine).length) (fun i => text.length - i) ?_ trivial
    (Nat.lt_succ_of_le (Nat.sub_le _ _))
  rintro i -
  by_cases hlt : i < text.length
  · have hcons : text.drop i = text[i] :: text.drop (i + 1) := List.drop_eq_getElem_cons hlt
    rw [lineEndTurn, if_pos hlt, stringGet_ok hlt, ok_bind]
    by_cases hin : text[i] ≠ lf ∧ text[i] ≠ cr
    · have hchar : inLine text[i] = true := decide_eq_true hin
      rw [if_pos hin]
      refine ⟨_, rfl, ⟨trivial, ?_⟩, Nat.sub_lt_sub_left hlt (Nat.lt_succ_self i)⟩
      rw [hcons, List.takeWhile_cons_of_pos hchar, List.length_cons]
      omega
    · have hchar : ¬inLine text[i] = true := by
        rw [inLine, decide_eq_true_iff]
        exact hin
      rw [if_neg hin]
      refine ⟨_, rfl, ?_⟩
      show i = i + ((text.drop i).takeWhile inLine).length
      rw [hcons, List.takeWhile_cons_of_neg hchar]
      rfl
  · rw [lineEndTurn, if_neg hlt]
    refine ⟨_, rfl, ?_⟩
    show i = i + ((text.drop i).takeWhile inLine).length
    rw [List.drop_of_length_le (Nat.le_of_not_lt hlt)]
    rfl

/-- There is no CR in the line that the second loop could leave out. -/
theorem lineText_ok (hstart : start ≤ stop) (hstop : stop ≤ text.length)
    (hin : ∀ ch ∈ (text.take stop).drop start, inLine ch = true) :
    whileLoop (text.length + 1) (lineTurn text stop) ([], start) = .ok ((text.take stop).drop start) := by
  refine @whileLoop_eq _ _ (lineTurn text stop) (text.length + 1) ([], start) (fun s => start ≤ s.2 ∧ s.2 ≤ stop)
    (fun s => s.1 ++ (text.take stop).drop s.2) (fun s => stop - s.2) ?_ ⟨Nat.le_refl _, hstart⟩
    (Nat.lt_succ_of_le (Nat.le_trans (Nat.sub_le _ _) hstop))
  rintro ⟨line, i⟩ ⟨hlow, hhigh⟩
  by_cases hlt : i < stop
  · have hplace : i < text.length := Nat.lt_of_lt_of_le hlt hstop
    have htake : i < (text.take stop).length := by
      rw [List.length_take_of_le hstop]
      exact hlt
    have hcons : (text.take stop).drop i = text[i] :: (text.take stop).drop (i + 1) := by
      rw [List.drop_eq_getElem_cons htake, List.getElem_take]
    have hmem : text[i] ∈ (text.take stop).drop start := by
      have hsuffix : (text.take stop).drop i <:+ (text.take stop).drop start := List.drop_suffix_drop_left _ hlow
      exact hsuffix.subset (hcons ▸ List.mem_cons_self)
    have hch : text[i] ≠ cr := (of_decide_eq_true (hin _ hmem)).2
    rw [lineTurn, if_pos hlt, stringGet_ok hplace, ok_bind, if_pos hch]
    refine ⟨_, rfl, ⟨⟨Nat.le_succ_of_le hlow, hlt⟩, ?_⟩, Nat.sub_lt_sub_left hlt (Nat.lt_succ_self i)⟩
    show line ++ [text[i]] ++ (text.take stop).drop (i + 1) = line ++ (text.take stop).drop i
    rw [hcons, List.append_assoc]
    rfl
  · rw [lineTurn, if_neg hlt]
    refine ⟨_, rfl, ?_⟩
    show line = line ++ (text.take stop).drop i
    rw [List.drop_of_length_le (by rw [List.length_take_of_le hstop]; exact Nat.le_of_not_lt hlt), List.append_nil]

theorem readLine_ok (hstart : start ≤ text.length) : readLine text start =
    .ok (trimmed ((text.drop start).takeWhile inLine), start + ((text.drop start).takeWhile inLine).length) := by
  have hlength : ((text.drop start).takeWhile inLine).length ≤ text.length - start := by
    rw [← List.length_drop]
    exact (List.takeWhile_prefix inLine).length_le
  have hline : (text.take (start + ((text.drop start).takeWhile inLine).length)).drop start =
      (text.drop start).takeWhile inLine := by
    rw [List.drop_take, Nat.add_sub_cancel_left]
    exact (List.prefix_iff_eq_take.mp (List.takeWhile_prefix inLine)).symm
  have htext := @lineText_ok text start (start + ((text.drop start).takeWhile inLine).length) (Nat.le_add_right _ _)
    (by omega) (by
      rw [hline]
      exact fun ch hch => List.mem_takeWhile_imp hch)
  rw [readLine, lineEnd_ok, ok_bind, htext, ok_bind, hline, trim_ok]
  rfl

theorem nextStart_ok (stop : Nat) : ∃ next, nextStart text stop = .ok next ∧ stop < next ∧
    text.drop next = behindEnd (text.drop stop) := by
  unfold nextStart
  by_cases hlt : stop < text.length
  · have hcons : text.drop stop = text[stop] :: text.drop (stop + 1) := List.drop_eq_getElem_cons hlt
    have hhead : (text.drop (stop + 1)).head? = text[stop + 1]? := List.head?_drop
    rw [if_pos hlt, stringGet_ok hlt, ok_bind, hcons, behindEnd, hhead]
    by_cases hcr : text[stop] = cr ∧ stop + 1 < text.length
    · rw [if_pos hcr, stringGet_ok hcr.2, ok_bind, List.getElem?_eq_getElem hcr.2]
      by_cases hlf : text[stop + 1] = lf
      · rw [if_pos hlf, if_pos ⟨hcr.1, congrArg some hlf⟩]
        exact ⟨_, rfl, Nat.lt_add_of_pos_right (by decide), by rw [List.tail_drop]⟩
      · rw [if_neg hlf, if_neg (fun h => hlf (Option.some.inj h.2))]
        exact ⟨_, rfl, Nat.lt_succ_self _, rfl⟩
    · rw [if_neg hcr]
      refine ⟨_, rfl, Nat.lt_succ_self _, (if_neg ?_).symm⟩
      rintro ⟨hch, hlf⟩
      obtain ⟨hshort, -⟩ := List.getElem?_eq_some_iff.mp hlf
      exact hcr ⟨hch, hshort⟩
  · rw [if_neg hlt, List.drop_of_length_le (Nat.le_of_not_lt hlt)]
    exact ⟨_, rfl, Nat.lt_succ_self _, List.drop_of_length_le (Nat.le_succ_of_le (Nat.le_of_not_lt hlt))⟩

/-- The walk goes from a line to the one behind it. -/
theorem nextLine_ok (text : Bytes) (start : Nat) : ∃ next,
    nextStart text (start + ((text.drop start).takeWhile inLine).length) = .ok next ∧
    start + ((text.drop start).takeWhile inLine).length < next ∧
    text.drop next = behindEnd ((text.drop start).dropWhile inLine) := by
  have hafter : text.drop (start + ((text.drop start).takeWhile inLine).length) = (text.drop start).dropWhile inLine := by
    rw [← List.drop_drop, drop_length_takeWhile]
  rw [← hafter]
  exact nextStart_ok _

end Vnt.StdLib
