import Vnt.StdLib.Config

/-!
# `StdLib.ConfigLookup` — what `get`, `has_key` and `section_exists` return

The lines of the text are headers, entries and others (`headerName`, `keyValue`), and a line lies in the section of the last
header above it. The walk of `config.vnt` finds the first entry with the key in the section. It passes over a line that begins
with `=`: an entry needs something in front of the `=`, be it blanks.
-/

namespace Vnt.StdLib

open Lib (Turn)
open Net (Bytes cr lf ascii)

/-! ## Lines and what they are -/

/-- The name in `[name]`, of a trimmed line. -/
def headerName (line : Bytes) : Option Bytes :=
  if 2 ≤ line.length ∧ line.head? = some 91 ∧ line.getLast? = some 93 then some (trimmed line.tail.dropLast) else none

/-- A blank line or a comment. -/
def IsRemark (line : Bytes) : Prop := line = [] ∨ line.head? = some 35 ∨ line.head? = some 59

instance (line : Bytes) : Decidable (IsRemark line) := inferInstanceAs (Decidable (_ ∨ _))

/-- What stands in front of the first `=` of an entry and behind it, of a trimmed line. -/
def keyValue (line : Bytes) : Option (Bytes × Bytes) :=
  if IsRemark line ∨ headerName line ≠ none ∨ 61 ∉ line then none
  else some (line.takeWhile (· ≠ 61), (line.dropWhile (· ≠ 61)).tail)

/-- A value without the quotes around it. -/
def unquoted (value : Bytes) : Bytes :=
  if 2 ≤ value.length ∧ value.head? = some 34 ∧ value.getLast? = some 34 then value.tail.dropLast else value

/-- The section behind these lines: the name of the last header. -/
def sectionAfter (current : Bytes) (ls : List Bytes) : Bytes :=
  ls.foldl (fun current l => (headerName (trimmed l)).getD current) current

/-- Behind the lines `before` the line `l` is an entry of the section `sect` with this key and the text `after` behind its `=`.
What stands in front of the `=` has the property `P`. -/
def EntryAt (P : Bytes → Prop) (sect key current : Bytes) (before : List Bytes) (l after : Bytes) : Prop :=
  sectionAfter current before = sect ∧ ∃ name, keyValue (trimmed l) = some (name, after) ∧ P name ∧ trimmed name = key

variable {sect key current line : Bytes}

/-! ## The functions on a line -/

theorem hasContent_ok (line : Bytes) : hasContent line = .ok (decide ¬IsRemark line) := by
  unfold hasContent
  cases line with
  | nil =>
      have hremark : ¬¬IsRemark [] := fun h => h (Or.inl rfl)
      rw [decide_eq_false hremark]
      rfl
  | cons ch rest =>
      have hiff : (ch ≠ 35 ∧ ch ≠ 59) ↔ ¬IsRemark (ch :: rest) := by
        unfold IsRemark
        simp
      have hpos : (ch :: rest).length > 0 := Nat.succ_pos _
      have hget : stringGet (ch :: rest) 0 = .ok ch := rfl
      rw [if_pos hpos, hget, ok_bind, ← decide_eq_decide.mpr hiff]
      rfl

theorem headerName_ne_none : headerName line ≠ none ↔ 2 ≤ line.length ∧ line.head? = some 91 ∧ line.getLast? = some 93 := by
  unfold headerName
  by_cases h : 2 ≤ line.length ∧ line.head? = some 91 ∧ line.getLast? = some 93
  · rw [if_pos h]
    exact ⟨fun _ => h, fun _ => Option.some_ne_none _⟩
  · rw [if_neg h]
    exact ⟨fun hne => absurd rfl hne, fun hyes => absurd hyes h⟩

theorem isHeader_ok (hne : line ≠ []) : isHeader line = .ok (decide (headerName line ≠ none)) := by
  cases line with
  | nil => exact absurd rfl hne
  | cons ch rest =>
      have hget : stringGet (ch :: rest) 0 = .ok ch := rfl
      rw [isHeader, hget, ok_bind]
      by_cases hfirst : ch = 91
      · rw [if_pos hfirst, stringGet_last hne, ok_bind]
        refine congrArg Except.ok (decide_eq_decide.mpr ?_)
        rw [headerName_ne_none, List.getLast?_eq_some_getLast hne]
        constructor
        · intro hlast
          -- A single bracket is not both brackets.
          have hlong : rest ≠ [] := by
            rintro rfl
            rw [List.getLast_singleton, hfirst] at hlast
            exact absurd hlast (by decide)
          have hpos := List.length_pos_of_ne_nil hlong
          exact ⟨Nat.succ_le_succ hpos, congrArg some hfirst, congrArg some hlast⟩
        · rintro ⟨-, -, hlast⟩
          exact Option.some.inj hlast
      · rw [if_neg hfirst]
        refine congrArg Except.ok (decide_eq_false fun hheader => ?_).symm
        obtain ⟨-, hhead, -⟩ := headerName_ne_none.mp hheader
        exact hfirst (Option.some.inj hhead)

/-- What stands between the first and the last character. -/
theorem slice_inner_ok (hlong : 2 ≤ line.length) : slice line 1 (line.length - 1) = .ok line.tail.dropLast := by
  rw [slice_ok (by omega) (Nat.sub_le _ _), ← List.dropLast_eq_take, List.drop_one, List.tail_dropLast]

theorem sectionName_ok {name : Bytes} (h : headerName line = some name) : sectionName line = .ok name := by
  have hheader := headerName_ne_none.mp (h ▸ Option.some_ne_none name)
  rw [headerName, if_pos hheader] at h
  rw [sectionName, sliceInner, slice_inner_ok hheader.1, ok_bind, trim_ok, Option.some.inj h]

theorem findChar_ok (text : Bytes) (target : UInt8) : findChar text target =
    .ok (if target ∈ text then ((text.takeWhile (· ≠ target)).length : Int) else -1) := by
  refine @whileLoop_eq _ _ (findCharTurn text target) (text.length + 1) 0 (fun _ => True)
    (fun i => if target ∈ text.drop i then ((i + ((text.drop i).takeWhile (· ≠ target)).length : ℕ) : Int) else -1)
    (fun i => text.length - i) ?_ trivial (Nat.lt_succ_of_le (Nat.sub_le _ _)) |>.trans ?_
  · rintro i -
    by_cases hlt : i < text.length
    · have hcons : text.drop i = text[i] :: text.drop (i + 1) := List.drop_eq_getElem_cons hlt
      rw [findCharTurn, if_pos hlt, stringGet_ok hlt, ok_bind]
      by_cases hch : text[i] = target
      · rw [if_pos hch]
        refine ⟨_, rfl, ?_⟩
        show (i : Int) = if target ∈ text.drop i then ((i + ((text.drop i).takeWhile (· ≠ target)).length : ℕ) : Int) else -1
        rw [hcons, if_pos (hch ▸ List.mem_cons_self), List.takeWhile_cons_of_neg (by simpa using hch)]
        rfl
      · rw [if_neg hch]
        refine ⟨_, rfl, ⟨trivial, ?_⟩, Nat.sub_lt_sub_left hlt (Nat.lt_succ_self i)⟩
        have hmem : target ∈ text.drop i ↔ target ∈ text.drop (i + 1) := by
          rw [hcons, List.mem_cons]
          exact ⟨fun h => h.resolve_left fun heq => hch heq.symm, Or.inr⟩
        have hcount : i + 1 + ((text.drop (i + 1)).takeWhile (· ≠ target)).length =
            i + ((text.drop i).takeWhile (· ≠ target)).length := by
          rw [hcons, List.takeWhile_cons_of_pos (by simpa using hch), List.length_cons]
          omega
        rw [hcount]
        exact if_congr hmem.symm rfl rfl
    · rw [findCharTurn, if_neg hlt]
      refine ⟨_, rfl, ?_⟩
      show (-1 : Int) = if target ∈ text.drop i then _ else -1
      rw [List.drop_of_length_le (Nat.le_of_not_lt hlt), if_neg List.not_mem_nil]
  · rw [List.drop_zero, Nat.zero_add]

theorem takeWhile_length_le (line : Bytes) : (line.takeWhile (· ≠ 61)).length ≤ line.length :=
  (List.takeWhile_prefix _).length_le

/-- The `=` of the entry is found where its key ends, if there is something in front of it. -/
theorem keyEquals_ok (key line : Bytes) : keyEquals key line =
    .ok (if 61 ∈ line ∧ line.takeWhile (· ≠ 61) ≠ [] ∧ trimmed (line.takeWhile (· ≠ 61)) = key then
      some (line.takeWhile (· ≠ 61)).length else none) := by
  rw [keyEquals, findChar_ok, ok_bind]
  by_cases hequals : 61 ∈ line
  · rw [if_pos hequals]
    by_cases hempty : line.takeWhile (· ≠ 61) = []
    · rw [hempty, if_neg (by decide), if_neg fun h => h.2.1 rfl]
      rfl
    · have hpos : ((line.takeWhile (· ≠ 61)).length : Int) > 0 := by
        have hlength := List.length_pos_of_ne_nil hempty
        omega
      have hbefore : (line.take (line.takeWhile (· ≠ 61)).length).drop 0 = line.takeWhile (· ≠ 61) :=
        (List.prefix_iff_eq_take.mp (List.takeWhile_prefix _)).symm
      rw [if_pos hpos, Int.toNat_natCast, iniPrefix, slice_ok (Nat.zero_le _) (takeWhile_length_le line), hbefore, ok_bind,
        trim_ok, ok_bind]
      by_cases hkey : trimmed (line.takeWhile (· ≠ 61)) = key
      · rw [if_pos hkey, if_pos ⟨hequals, hempty, hkey⟩]
        rfl
      · rw [if_neg hkey, if_neg fun h => hkey h.2.2]
        rfl
  · rw [if_neg hequals, if_neg (by decide), if_neg fun h => hequals h.1]
    rfl

theorem isQuoted_ok (value : Bytes) : isQuoted value =
    .ok (decide (2 ≤ value.length ∧ value.head? = some 34 ∧ value.getLast? = some 34)) := by
  unfold isQuoted
  by_cases hlong : value.length ≥ 2
  · cases value with
    | nil => exact absurd hlong (by decide)
    | cons ch rest =>
        have hget : stringGet (ch :: rest) 0 = .ok ch := rfl
        have hne : ch :: rest ≠ [] := List.cons_ne_nil _ _
        rw [if_pos hlong, hget, ok_bind]
        by_cases hfirst : ch = 34
        · rw [if_pos hfirst, stringGet_last hne, ok_bind]
          refine congrArg Except.ok (decide_eq_decide.mpr ?_)
          rw [List.getLast?_eq_some_getLast hne]
          exact ⟨fun h => ⟨hlong, congrArg some hfirst, congrArg some h⟩, fun h => Option.some.inj h.2.2⟩
        · rw [if_neg hfirst]
          exact congrArg Except.ok (decide_eq_false fun h => hfirst (Option.some.inj h.2.1)).symm
  · rw [if_neg hlong]
    exact congrArg Except.ok (decide_eq_false fun h => hlong h.1).symm

theorem entryValue_ok (hequals : 61 ∈ line) : entryValue line (line.takeWhile (· ≠ 61)).length =
    .ok (.str (unquoted (trimmed (line.dropWhile (· ≠ 61)).tail))) := by
  have hlt : (line.takeWhile (· ≠ 61)).length < line.length := by
    refine Nat.lt_of_le_of_ne (takeWhile_length_le line) fun hall => ?_
    have hwhole := (List.takeWhile_prefix (fun ch : UInt8 => decide (ch ≠ 61))).eq_of_length hall
    have hch := List.mem_takeWhile_imp (hwhole.symm ▸ hequals)
    exact absurd hch (by decide)
  have hafter : (line.take line.length).drop ((line.takeWhile (· ≠ 61)).length + 1) = (line.dropWhile (· ≠ 61)).tail := by
    rw [List.take_length, ← drop_length_takeWhile, List.tail_drop]
  rw [entryValue, iniSuffix, slice_ok hlt (Nat.le_refl _), hafter, ok_bind, trim_ok, ok_bind, isQuoted_ok, ok_bind]
  unfold unquoted
  by_cases hquoted : 2 ≤ (trimmed (line.dropWhile (· ≠ 61)).tail).length ∧
      (trimmed (line.dropWhile (· ≠ 61)).tail).head? = some 34 ∧ (trimmed (line.dropWhile (· ≠ 61)).tail).getLast? = some 34
  · rw [decide_eq_true hquoted, if_pos rfl, if_pos hquoted, unquote, slice_inner_ok hquoted.1]
    rfl
  · rw [decide_eq_false hquoted, if_neg Bool.false_ne_true, if_neg hquoted]
    rfl

/-- What the walk makes of a line in the section `current`: the section behind it, or the text behind the `=`. -/
def lineOutcome (sect key current line : Bytes) : Turn Bytes Bytes :=
  match headerName line, keyValue line with
  | some name, _ => .next name
  | none, some (name, after) =>
      if current = sect ∧ name ≠ [] ∧ trimmed name = key then .done after else .next current
  | none, none => .next current

theorem lineOutcome_header {name : Bytes} (h : headerName line = some name) : lineOutcome sect key current line = .next name := by
  rw [lineOutcome, h]

theorem lineOutcome_entry {name after : Bytes} (hheader : headerName line = none) (h : keyValue line = some (name, after)) :
    lineOutcome sect key current line =
      if current = sect ∧ name ≠ [] ∧ trimmed name = key then .done after else .next current := by
  rw [lineOutcome, hheader, h]

theorem lineOutcome_other (hheader : headerName line = none) (h : keyValue line = none) :
    lineOutcome sect key current line = .next current := by
  rw [lineOutcome, hheader, h]

variable {ρ : Type} {found : Bytes → Nat → Hosted ρ} {result : Bytes → ρ}

/-- The outcome with what is returned for the text behind the `=`. -/
def returning (result : Bytes → ρ) : Turn Bytes Bytes → Turn Bytes ρ
  | .next current => .next current
  | .done after => .done (result after)

theorem isRemark_header (h : IsRemark line) : headerName line = none := by
  by_contra hheader
  obtain ⟨-, hhead, -⟩ := headerName_ne_none.mp hheader
  rcases h with rfl | h | h
  · cases hhead
  · exact absurd (h.symm.trans hhead) (by decide)
  · exact absurd (h.symm.trans hhead) (by decide)

/-- The functions look at a line as `lineOutcome` does. -/
theorem scanLine_ok (hfound : ∀ line, 61 ∈ line →
      found line (line.takeWhile (· ≠ 61)).length = .ok (result (line.dropWhile (· ≠ 61)).tail)) :
    scanLine found sect key current line = .ok (returning result (lineOutcome sect key current line)) := by
  rw [scanLine, hasContent_ok, ok_bind]
  by_cases hremark : IsRemark line
  · rw [decide_eq_false fun h => h hremark, if_neg Bool.false_ne_true,
      lineOutcome_other (isRemark_header hremark) (if_pos (Or.inl hremark))]
    rfl
  have hne : line ≠ [] := fun h => hremark (Or.inl h)
  rw [decide_eq_true hremark, if_pos rfl, isHeader_ok hne, ok_bind]
  cases hheader : headerName line with
  | some name =>
      rw [decide_eq_true (Option.some_ne_none name), if_pos rfl, sectionName_ok hheader, ok_bind, lineOutcome_header hheader]
      rfl
  | none =>
      rw [decide_eq_false fun h => h rfl, if_neg Bool.false_ne_true]
      by_cases hequals : 61 ∈ line
      · have hpair : keyValue line = some (line.takeWhile (· ≠ 61), (line.dropWhile (· ≠ 61)).tail) := by
          refine if_neg ?_
          rintro (h | h | h)
          · exact hremark h
          · exact h hheader
          · exact h hequals
        rw [lineOutcome_entry hheader hpair]
        by_cases hsect : current = sect
        · rw [if_pos hsect, keyEquals_ok, ok_bind]
          by_cases hkey : line.takeWhile (· ≠ 61) ≠ [] ∧ trimmed (line.takeWhile (· ≠ 61)) = key
          · rw [if_pos ⟨hequals, hkey⟩, if_pos ⟨hsect, hkey⟩]
            show (found line (line.takeWhile (· ≠ 61)).length >>= fun result => pure (Turn.done result)) = _
            rw [hfound line hequals, ok_bind]
            rfl
          · rw [if_neg fun h => hkey h.2, if_neg fun h => hkey h.2]
            rfl
        · rw [if_neg hsect, if_neg fun h => hsect h.1]
          rfl
      · rw [lineOutcome_other hheader (if_pos (Or.inr (Or.inr hequals)))]
        by_cases hsect : current = sect
        · rw [if_pos hsect, keyEquals_ok, ok_bind, if_neg fun h => hequals h.1]
          rfl
        · rw [if_neg hsect]
          rfl

/-! ## The walk over the lines -/

/-- The text behind the `=` of the first entry in these lines. -/
def lookup (sect key : Bytes) : Bytes → List Bytes → Option Bytes
  | _, [] => none
  | current, l :: ls =>
      match lineOutcome sect key current (trimmed l) with
      | .next current => lookup sect key current ls
      | .done after => some after

theorem lookup_next {l next : Bytes} {ls : List Bytes} (h : lineOutcome sect key current (trimmed l) = .next next) :
    lookup sect key current (l :: ls) = lookup sect key next ls := by
  rw [lookup, h]

theorem lookup_done {l after : Bytes} {ls : List Bytes} (h : lineOutcome sect key current (trimmed l) = .done after) :
    lookup sect key current (l :: ls) = some after := by
  rw [lookup, h]

/-- The empty line at the end of a text is no entry. -/
theorem lookup_empty : lookup sect key current (iniLines []) = none := by
  have hremark : IsRemark (trimmed []) := Or.inl rfl
  have hempty : lineOutcome sect key current (trimmed []) = .next current :=
    lineOutcome_other (isRemark_header hremark) (if_pos (Or.inl hremark))
  exact lookup_next hempty

variable {text : Bytes} {missing : ρ}

/-- The walk returns what is found in the lines. -/
theorem scan_ok (hfound : ∀ line, 61 ∈ line →
      found line (line.takeWhile (· ≠ 61)).length = .ok (result (line.dropWhile (· ≠ 61)).tail)) :
    whileLoop (text.length + 1) (scanTurn found missing text sect key) ([], 0) =
      .ok ((lookup sect key [] (iniLines text)).elim missing result) := by
  refine @whileLoop_eq _ _ (scanTurn found missing text sect key) (text.length + 1) ([], 0) (fun _ => True)
    (fun s => (lookup sect key s.1 (iniLines (text.drop s.2))).elim missing result) (fun s => text.length - s.2) ?_ trivial
    (Nat.lt_succ_of_le (Nat.sub_le _ _))
  rintro ⟨current, start⟩ -
  by_cases hlt : start < text.length
  · obtain ⟨next, hnext, hmoved, hdrop⟩ := nextLine_ok text start
    rw [scanTurn, if_pos hlt, readLine_ok (Nat.le_of_lt hlt), ok_bind]
    show ∃ turn, (scanLine found sect key current (trimmed ((text.drop start).takeWhile inLine)) >>= _) = .ok turn ∧ _
    rw [scanLine_ok hfound, ok_bind]
    cases houtcome : lineOutcome sect key current (trimmed ((text.drop start).takeWhile inLine)) with
    | done after =>
        refine ⟨_, rfl, ?_⟩
        show result after = (lookup sect key current (iniLines (text.drop start))).elim missing result
        rw [iniLines_scan, lookup_done houtcome]
        rfl
    | next name =>
        refine ⟨.next (name, next), ?_, ⟨trivial, ?_⟩, ?_⟩
        · show (nextStart text _ >>= _) = _
          rw [hnext, ok_bind]
          rfl
        · show (lookup sect key name (iniLines (text.drop next))).elim missing result =
            (lookup sect key current (iniLines (text.drop start))).elim missing result
          rw [hdrop, @iniLines_scan (text.drop start), lookup_next houtcome]
          by_cases hlast : (text.drop start).dropWhile inLine = []
          · rw [if_pos hlast, hlast, behindEnd, lookup_empty]
            rfl
          · rw [if_neg hlast]
        · show text.length - next < text.length - start
          omega
  · rw [scanTurn, if_neg hlt]
    refine ⟨_, rfl, ?_⟩
    show missing = (lookup sect key current (iniLines (text.drop start))).elim missing result
    rw [List.drop_of_length_le (Nat.le_of_not_lt hlt), lookup_empty]
    rfl

/-! ## The first entry -/

/-- No line is the entry. -/
def NoEntry (P : Bytes → Prop) (sect key current : Bytes) (ls : List Bytes) : Prop :=
  ∀ before l later after, ls = before ++ l :: later → ¬EntryAt P sect key current before l after

/-- The first line that is the entry has `after` behind its `=`. -/
def FirstEntry (P : Bytes → Prop) (sect key current : Bytes) (ls : List Bytes) (after : Bytes) : Prop :=
  ∃ before l later, ls = before ++ l :: later ∧ EntryAt P sect key current before l after ∧
    NoEntry P sect key current before

/-- What an entry of the program has in front of its `=`. -/
def Named (name : Bytes) : Prop := name ≠ []

theorem keyValue_header {pair : Bytes × Bytes} (h : keyValue line = some pair) : headerName line = none := by
  by_contra hheader
  rw [keyValue, if_pos (Or.inr (Or.inl hheader))] at h
  cases h

theorem lineOutcome_done {l after : Bytes} :
    lineOutcome sect key current (trimmed l) = .done after ↔ EntryAt Named sect key current [] l after := by
  constructor
  · intro h
    cases hheader : headerName (trimmed l) with
    | some name =>
        rw [lineOutcome_header hheader] at h
        cases h
    | none =>
        cases hpair : keyValue (trimmed l) with
        | none =>
            rw [lineOutcome_other hheader hpair] at h
            cases h
        | some pair =>
            rw [lineOutcome_entry hheader hpair] at h
            by_cases hentry : current = sect ∧ pair.1 ≠ [] ∧ trimmed pair.1 = key
            · rw [if_pos hentry] at h
              cases h
              exact ⟨hentry.1, pair.1, hpair, hentry.2⟩
            · rw [if_neg hentry] at h
              cases h
  · rintro ⟨hsect, name, hpair, hnamed, hkey⟩
    rw [lineOutcome_entry (keyValue_header hpair) hpair, if_pos ⟨hsect, hnamed, hkey⟩]

theorem lineOutcome_next {l name : Bytes} (h : lineOutcome sect key current (trimmed l) = .next name) :
    (headerName (trimmed l)).getD current = name := by
  cases hheader : headerName (trimmed l) with
  | some header =>
      rw [lineOutcome_header hheader] at h
      cases h
      rfl
  | none =>
      cases hpair : keyValue (trimmed l) with
      | none =>
          rw [lineOutcome_other hheader hpair] at h
          cases h
          rfl
      | some pair =>
          rw [lineOutcome_entry hheader hpair] at h
          split at h
          · cases h
          · cases h
            rfl

/-- `lookup` finds the first entry: by induction on the lines, with the section so far. -/
theorem lookup_first (sect key : Bytes) (ls : List Bytes) : ∀ current,
    (∃ after, FirstEntry Named sect key current ls after ∧ lookup sect key current ls = some after) ∨
      NoEntry Named sect key current ls ∧ lookup sect key current ls = none := by
  induction ls with
  | nil =>
      intro current
      refine Or.inr ⟨?_, rfl⟩
      intro before l later after h
      exact absurd h.symm (List.append_ne_nil_of_right_ne_nil _ (List.cons_ne_nil _ _))
  | cons l ls ih =>
      intro current
      cases houtcome : lineOutcome sect key current (trimmed l) with
      | done after =>
          refine Or.inl ⟨after, ⟨[], l, ls, rfl, lineOutcome_done.mp houtcome, ?_⟩, lookup_done houtcome⟩
          intro before l' later after' h
          exact absurd h.symm (List.append_ne_nil_of_right_ne_nil _ (List.cons_ne_nil _ _))
      | next name =>
          have hname := lineOutcome_next houtcome
          have hfirst : ∀ after, ¬EntryAt Named sect key current [] l after := by
            intro after hentry
            cases houtcome.symm.trans (lineOutcome_done.mpr hentry)
          have hshift : ∀ before l' after, EntryAt Named sect key current (l :: before) l' after ↔
              EntryAt Named sect key name before l' after := by
            intro before l' after
            rw [← hname]
            rfl
          have hnone : ∀ before, NoEntry Named sect key name before → NoEntry Named sect key current (l :: before) := by
            intro before h before' l' later after hsplit
            cases before' with
            | nil =>
                cases hsplit
                exact hfirst after
            | cons l'' more =>
                obtain ⟨rfl, hmore⟩ := List.cons.inj hsplit
                rw [hshift]
                exact h more l' later after hmore
          rw [lookup_next houtcome]
          rcases ih name with ⟨after, ⟨before, l', later, rfl, hentry, hno⟩, hlookup⟩ | ⟨hno, hlookup⟩
          · exact Or.inl ⟨after, ⟨l :: before, l', later, rfl, (hshift _ _ _).mpr hentry, hnone before hno⟩, hlookup⟩
          · exact Or.inr ⟨hnone ls hno, hlookup⟩

/-! ## The functions -/

theorem get_lookup (text sect key : Bytes) (d : Val) : get text sect key d =
    .ok ((lookup sect key [] (iniLines text)).elim d fun after => .str (unquoted (trimmed after))) :=
  scan_ok fun _ => entryValue_ok

theorem hasKey_lookup (text sect key : Bytes) : hasKey text sect key =
    .ok ((lookup sect key [] (iniLines text)).elim false fun _ => true) :=
  scan_ok fun _ _ => rfl

theorem sectionLine_ok (sect line : Bytes) : sectionLine sect line = .ok (decide (headerName line = some sect)) := by
  unfold sectionLine
  by_cases hlong : line.length > 1
  · have hne : line ≠ [] := List.ne_nil_of_length_pos (Nat.lt_trans Nat.zero_lt_one hlong)
    rw [if_pos hlong, isHeader_ok hne, ok_bind]
    cases hheader : headerName line with
    | none =>
        rw [decide_eq_false fun h => h rfl, if_neg Bool.false_ne_true]
        rfl
    | some name =>
        rw [decide_eq_true (Option.some_ne_none name), if_pos rfl, sectionName_ok hheader, ok_bind]
        exact congrArg Except.ok (decide_eq_decide.mpr ⟨congrArg some, Option.some.inj⟩)
  · have hnone : headerName line = none := if_neg fun h => hlong h.1
    rw [if_neg hlong, hnone]
    rfl

/-- The sections of a text. -/
theorem sectionExists_ok (text sect : Bytes) : sectionExists text sect =
    .ok (decide (∃ l ∈ iniLines text, headerName (trimmed l) = some sect)) := by
  have hempty : ¬∃ l ∈ iniLines [], headerName (trimmed l) = some sect := by
    rintro ⟨l, hl, hheader⟩
    cases List.mem_singleton.mp hl
    cases hheader
  refine @whileLoop_eq _ _ (sectionTurn text sect) (text.length + 1) 0 (fun _ => True)
    (fun start => decide (∃ l ∈ iniLines (text.drop start), headerName (trimmed l) = some sect))
    (fun start => text.length - start) ?_ trivial (Nat.lt_succ_of_le (Nat.sub_le _ _))
  rintro start -
  by_cases hlt : start < text.length
  · obtain ⟨next, hnext, hmoved, hdrop⟩ := nextLine_ok text start
    rw [sectionTurn, if_pos hlt, readLine_ok (Nat.le_of_lt hlt), ok_bind]
    show ∃ turn, (sectionLine sect (trimmed ((text.drop start).takeWhile inLine)) >>= _) = .ok turn ∧ _
    rw [sectionLine_ok, ok_bind]
    by_cases hheader : headerName (trimmed ((text.drop start).takeWhile inLine)) = some sect
    · rw [decide_eq_true hheader, if_pos rfl]
      refine ⟨_, rfl, (decide_eq_true ?_).symm⟩
      rw [iniLines_scan]
      exact ⟨_, List.mem_cons_self, hheader⟩
    · rw [decide_eq_false hheader, if_neg Bool.false_ne_true, hnext, ok_bind]
      refine ⟨_, rfl, ⟨trivial, decide_eq_decide.mpr ?_⟩, ?_⟩
      · show (∃ l ∈ iniLines (text.drop next), headerName (trimmed l) = some sect) ↔
          ∃ l ∈ iniLines (text.drop start), headerName (trimmed l) = some sect
        rw [hdrop, @iniLines_scan (text.drop start), List.exists_mem_cons_iff]
        by_cases hlast : (text.drop start).dropWhile inLine = []
        · rw [if_pos hlast, hlast, behindEnd]
          constructor
          · intro h
            exact absurd h hempty
          · rintro (h | ⟨l, hl, -⟩)
            · exact absurd h hheader
            · exact absurd hl List.not_mem_nil
        · rw [if_neg hlast]
          exact ⟨Or.inr, fun h => h.resolve_left hheader⟩
      · show text.length - next < text.length - start
        omega
  · rw [sectionTurn, if_neg hlt]
    refine ⟨_, rfl, (decide_eq_false ?_).symm⟩
    rw [List.drop_of_length_le (Nat.le_of_not_lt hlt)]
    exact hempty

/-- `get` returns the value of the first entry, or what it is given if there is none. -/
def Looks (P : Bytes → Prop) (text sect key : Bytes) : Prop :=
  (∃ after, FirstEntry P sect key [] (iniLines text) after ∧
    ∀ d, get text sect key d = .ok (.str (unquoted (trimmed after)))) ∨
  NoEntry P sect key [] (iniLines text) ∧ ∀ d, get text sect key d = .ok d

/-- **Lookup in an INI text.** `get` returns the value of the first entry with the key in the section, where an entry has
something in front of its `=`; `has_key` says whether what `get` returns is independent of the default; `section_exists` whether
some header has the name. All three return on every text. -/
theorem config_exact (text sect key : Bytes) : Looks Named text sect key ∧
    (∃ b, hasKey text sect key = .ok b ∧ (b = true ↔ ∀ d d', get text sect key d = get text sect key d')) ∧
    ∃ b, sectionExists text sect = .ok b ∧ (b = true ↔ ∃ l ∈ iniLines text, headerName (trimmed l) = some sect) := by
  have hget := get_lookup text sect key
  have hhas := hasKey_lookup text sect key
  refine ⟨?_, ?_, _, sectionExists_ok text sect, decide_eq_true_iff⟩
  · rcases lookup_first sect key (iniLines text) [] with ⟨after, hfirst, hlookup⟩ | ⟨hno, hlookup⟩
    · rw [hlookup] at hget
      exact Or.inl ⟨after, hfirst, hget⟩
    · rw [hlookup] at hget
      exact Or.inr ⟨hno, hget⟩
  · refine ⟨_, hhas, ?_⟩
    cases hlookup : lookup sect key [] (iniLines text) with
    | some after =>
        refine ⟨fun _ d d' => ?_, fun _ => rfl⟩
        rw [hget d, hget d', hlookup]
        rfl
    | none =>
        refine ⟨fun h => absurd h Bool.false_ne_true, fun hsame => ?_⟩
        -- Two defaults come back as they are.
        have htwo := hsame (.int 0) (.int 1)
        rw [hget, hget, hlookup] at htwo
        cases htwo

/-- `=x` is no entry with the empty key. -/
theorem get_passes_empty_key : ¬Looks (fun _ => True) (ascii "=x") [] [] := by
  have hget : ∀ d, get (ascii "=x") [] [] d = .ok d := fun d => get_lookup (ascii "=x") [] [] d
  rintro (⟨after, -, hfound⟩ | ⟨hno, -⟩)
  · have htwo := (hget (.int 0)).symm.trans (hfound (.int 0))
    cases htwo
  · exact hno [] (ascii "=x") [] (ascii "x") rfl ⟨rfl, [], rfl, trivial, rfl⟩

end Vnt.StdLib
