import Vnt.Lib.Pieces
import Vnt.StdLib.Arrays

/-!
# `StdLib.Validate` — checks of text (`validate.vnt`)

The character classes and `looks_like_email`. A character is a string of one byte, so that `len(ch) == 1` holds of every one.
`||` evaluates its right side only behind a left side that is false: `value[i - 1]` is read behind `i == 0`.
-/

namespace Vnt.StdLib

open Lib (Turn)
open Net (Bytes ascii)

/-! ## Character classes -/

def digitValue (ch : UInt8) : Bool := (ascii "0123456789").contains ch

def lowerAsciiValue (ch : UInt8) : Bool := (ascii "abcdefghijklmnopqrstuvwxyz").contains ch

def upperAsciiValue (ch : UInt8) : Bool := (ascii "ABCDEFGHIJKLMNOPQRSTUVWXYZ").contains ch

def letterValue (ch : UInt8) : Bool := lowerAsciiValue ch || upperAsciiValue ch

def alphanumericValue (ch : UInt8) : Bool := letterValue ch || digitValue ch

/-- `ch == " " || ch == "\t" || ch == "\r" || ch == "\n"` -/
def blankChar (ch : UInt8) : Bool := ch == 32 || ch == 9 || ch == 13 || ch == 10

/-- `while i < size { … }` of `blank_value`. -/
def blankTurn (value : Bytes) (i : Nat) : Hosted (Turn Nat Bool) :=
  if i < value.length then do
    let ch ← stringGet value i
    if !blankChar ch then pure (.done false) else pure (.next (i + 1))
  else pure (.done true)

def blankValue (value : Bytes) : Hosted Bool := whileLoop (value.length + 1) (blankTurn value) 0

/-! ## `looks_like_email` -/

/-- The at sign. -/
def atByte : UInt8 := 64

/-- The dot. -/
def dotByte : UInt8 := 46

/-- The hyphen. -/
def hyphenByte : UInt8 := 45

/-- `!alphanumeric_value(ch) && ch != "_" && ch != "%" && ch != "+" && ch != "-"`, the other way round. -/
def localChar (ch : UInt8) : Bool :=
  alphanumericValue ch || ch == 95 || ch == 37 || ch == 43 || ch == hyphenByte

/-- `!alphanumeric_value(ch) && ch != "-"`, the other way round. -/
def labelChar (ch : UInt8) : Bool := alphanumericValue ch || ch == hyphenByte

/-- The variables of the loop. A character that is `""` is none. -/
structure EmailState where
  atSign : Int
  dot : Int
  firstDomainChar : Option UInt8
  lastChar : Option UInt8
  previousDomainChar : Option UInt8
  i : Nat
  deriving DecidableEq

def emailStart : EmailState := ⟨-1, -1, none, none, none, 0⟩

/-- `i == 0 || value[i - 1] == "."` -/
def behindDot (value : Bytes) (i : Nat) : Hosted Bool :=
  if i = 0 then pure true
  else do
    let c ← stringGet value ((i : Int) - 1)
    pure (c = dotByte)

/-- What the loop makes of a character of the domain, or `return false`. -/
def domainChar (s : EmailState) (ch : UInt8) : Option EmailState :=
  let first := if s.firstDomainChar = none then some ch else s.firstDomainChar
  if ch = dotByte then
    if s.previousDomainChar = some dotByte ∨ s.previousDomainChar = some hyphenByte then none
    else some { s with firstDomainChar := first, dot := s.i, previousDomainChar := some ch }
  else if !labelChar ch then none
  else if s.previousDomainChar = some dotByte ∧ ch = hyphenByte then none
  else some { s with firstDomainChar := first, previousDomainChar := some ch }

/-- What the loop makes of a character, or `return false`. -/
def emailChar (value : Bytes) (s : EmailState) (ch : UInt8) : Hosted (Option EmailState) :=
  if ch = atByte then
    if s.atSign ≠ -1 then pure none
    else do
      if ← behindDot value s.i then pure none else pure (some { s with atSign := s.i })
  else if s.atSign = -1 then
    if ch = dotByte then do
      if ← behindDot value s.i then pure none else pure (some s)
    else if !localChar ch then pure none
    else pure (some s)
  else pure (domainChar s ch)

/-- The last two statements. -/
def emailEnd (size : Nat) (s : EmailState) : Bool :=
  if s.atSign ≤ 0 ∨ s.atSign ≥ (size : Int) - 3 then false
  else decide (s.firstDomainChar ≠ some dotByte ∧ s.firstDomainChar ≠ some hyphenByte ∧ s.lastChar ≠ some dotByte ∧
    s.lastChar ≠ some hyphenByte ∧ s.dot > s.atSign + 1 ∧ s.dot < (size : Int) - 1)

/-- `while i < size { … }` and what comes behind it. -/
def emailTurn (value : Bytes) (s : EmailState) : Hosted (Turn EmailState Bool) :=
  if s.i < value.length then do
    let ch ← stringGet value s.i
    match ← emailChar value s ch with
    | none => pure (.done false)
    | some s =>
        if blankChar ch then pure (.done false)
        else pure (.next { s with lastChar := some ch, i := s.i + 1 })
  else pure (.done (emailEnd value.length s))

def looksLikeEmail (value : Bytes) : Hosted Bool :=
  if value.length < 5 then pure false
  else do
    if ← blankValue value then pure false else whileLoop (value.length + 1) (emailTurn value) emailStart

/-!
## What `looks_like_email` accepts

The grammar, and what is left of it behind a prefix: `LocalRest` in front of the at sign and `DomainTail` behind it. One
character takes each of them to the next, the way the loop goes on, and the loop keeps that the whole text is an address
just when the rest of it is what is left of the grammar.
-/

variable {v s l d : Bytes} {c : UInt8}

/-! ## The grammar -/

/-- An ASCII letter or digit. -/
def AlnumByte (c : UInt8) : Prop :=
  (65 ≤ c.toNat ∧ c.toNat ≤ 90) ∨ (97 ≤ c.toNat ∧ c.toNat ≤ 122) ∨ (48 ≤ c.toNat ∧ c.toNat ≤ 57)

instance (c : UInt8) : Decidable (AlnumByte c) := inferInstanceAs (Decidable (_ ∨ _))

/-- A character of the local part: also `_`, `%`, `+` and `-`. -/
def LocalByte (c : UInt8) : Prop := AlnumByte c ∨ c = 95 ∨ c = 37 ∨ c = 43 ∨ c = 45

instance (c : UInt8) : Decidable (LocalByte c) := inferInstanceAs (Decidable (_ ∨ _))

/-- A character of a label: also `-`. -/
def LabelByte (c : UInt8) : Prop := AlnumByte c ∨ c = 45

instance (c : UInt8) : Decidable (LabelByte c) := inferInstanceAs (Decidable (_ ∨ _))

/-- A run of the local part. -/
def LocalRun (r : Bytes) : Prop := r ≠ [] ∧ ∀ c ∈ r, LocalByte c

/-- A label of the domain. -/
def DomainLabel (r : Bytes) : Prop :=
  r ≠ [] ∧ (∀ c ∈ r, LabelByte c) ∧ r.head? ≠ some hyphenByte ∧ r.getLast? ≠ some hyphenByte

/-- Runs joined by single dots. -/
def LocalPart (l : Bytes) : Prop := ∃ runs, runs ≠ [] ∧ (∀ r ∈ runs, LocalRun r) ∧ l = [dotByte].intercalate runs

/-- Two labels or more, joined by single dots. -/
def DomainPart (d : Bytes) : Prop :=
  ∃ labels : List Bytes, 2 ≤ labels.length ∧ (∀ r ∈ labels, DomainLabel r) ∧ d = [dotByte].intercalate labels

/-- An address. -/
def EmailAddress (v : Bytes) : Prop := ∃ l d, v = l ++ atByte :: d ∧ LocalPart l ∧ DomainPart d

/-! ## Characters -/

/-- The characters of a run of codes. -/
theorem contains_run {first size : Nat} (h : first + size ≤ 256) :
    ((List.range' first size).map UInt8.ofNat).contains c = true ↔ first ≤ c.toNat ∧ c.toNat < first + size := by
  rw [List.contains_iff_mem, List.mem_map]
  constructor
  · rintro ⟨n, hn, rfl⟩
    rw [List.mem_range'_1] at hn
    rwa [UInt8.toNat_ofNat_of_lt' (show n < 256 by omega)]
  · intro hc
    exact ⟨c.toNat, List.mem_range'_1.mpr hc, UInt8.ofNat_toNat⟩

theorem alphanumericValue_iff : alphanumericValue c = true ↔ AlnumByte c := by
  -- each of the three texts is a run of codes
  have hlower : lowerAsciiValue c = ((List.range' 97 26).map UInt8.ofNat).contains c := rfl
  have hupper : upperAsciiValue c = ((List.range' 65 26).map UInt8.ofNat).contains c := rfl
  have hdigit : digitValue c = ((List.range' 48 10).map UInt8.ofNat).contains c := rfl
  rw [alphanumericValue, letterValue, hlower, hupper, hdigit, Bool.or_eq_true, Bool.or_eq_true, contains_run (by decide),
    contains_run (by decide), contains_run (by decide), AlnumByte]
  omega

theorem localChar_iff : localChar c = true ↔ LocalByte c := by
  unfold localChar LocalByte hyphenByte
  simp only [Bool.or_eq_true, alphanumericValue_iff, beq_iff_eq, or_assoc]

theorem labelChar_iff : labelChar c = true ↔ LabelByte c := by
  unfold labelChar LabelByte hyphenByte
  simp only [Bool.or_eq_true, alphanumericValue_iff, beq_iff_eq]

theorem LabelByte.isLocal (h : LabelByte c) : LocalByte c := by
  rcases h with hal | hhyphen
  · exact Or.inl hal
  · exact Or.inr (Or.inr (Or.inr (Or.inr hhyphen)))

/-- The dot and the at sign are in no class. -/
theorem LocalByte.ne_dot (h : LocalByte c) : c ≠ dotByte := by
  rintro rfl
  exact absurd h (by decide)

theorem LocalByte.not_blank (h : LocalByte c) : blankChar c = false := by
  by_contra hblank
  have hcases : c = 32 ∨ c = 9 ∨ c = 13 ∨ c = 10 := by
    simpa only [blankChar, Bool.not_eq_false, Bool.or_eq_true, beq_iff_eq, or_assoc] using hblank
  rcases hcases with rfl | rfl | rfl | rfl <;> exact absurd h (by decide)

/-! ## What is left of the local part -/

/-- The end of a local part; its first run has been begun when `opened`. -/
def LocalTail (opened : Bool) (l : Bytes) : Prop :=
  ∃ r rs, l = [dotByte].intercalate (r :: rs) ∧ (opened = false → r ≠ []) ∧ (∀ c ∈ r, LocalByte c) ∧ ∀ q ∈ rs, LocalRun q

/-- The end of an address whose at sign is still to come. -/
def LocalRest (opened : Bool) (t : Bytes) : Prop :=
  ∃ l d, t = l ++ atByte :: d ∧ LocalTail opened l ∧ DomainPart d

variable {opened : Bool}

theorem localPart_iff : LocalPart l ↔ LocalTail false l := by
  constructor
  · rintro ⟨runs, hne, hall, rfl⟩
    obtain ⟨r, rs, rfl⟩ := List.exists_cons_of_ne_nil hne
    have hr := hall r List.mem_cons_self
    exact ⟨r, rs, rfl, fun _ => hr.1, hr.2, fun q hq => hall q (List.mem_cons_of_mem r hq)⟩
  · rintro ⟨r, rs, rfl, hr, hbytes, hrest⟩
    refine ⟨r :: rs, List.cons_ne_nil r rs, ?_, rfl⟩
    intro q hq
    rcases List.mem_cons.mp hq with rfl | hq
    · exact ⟨hr rfl, hbytes⟩
    · exact hrest q hq

theorem localTail_nil : LocalTail opened [] ↔ opened = true := by
  constructor
  · rintro ⟨r, rs, hnil, hr, -⟩
    by_contra hclosed
    exact hr (Bool.eq_false_iff.mpr hclosed) (Lib.intercalate_eq_nil_iff.mp hnil.symm).1
  · rintro rfl
    exact ⟨[], [], rfl, fun h => absurd h (by decide), fun _ hc => absurd hc List.not_mem_nil,
      fun _ hq => absurd hq List.not_mem_nil⟩

/-- A dot ends a run, and the next has to begin. -/
theorem localTail_dot : LocalTail opened (dotByte :: l) ↔ opened = true ∧ LocalTail false l := by
  constructor
  · rintro ⟨r, rs, hl, hr, hbytes, hrest⟩
    rcases Lib.intercalate_eq_cons_iff.mp hl.symm with ⟨r', rfl, -⟩ | ⟨rfl, -, q, qs, rfl, rfl⟩
    · exact absurd rfl (hbytes dotByte List.mem_cons_self).ne_dot
    · have hq := hrest q List.mem_cons_self
      refine ⟨?_, q, qs, rfl, fun _ => hq.1, hq.2, fun p hp => hrest p (List.mem_cons_of_mem q hp)⟩
      by_contra hclosed
      exact hr (Bool.eq_false_iff.mpr hclosed) rfl
  · rintro ⟨rfl, q, qs, rfl, hq, hbytes, hrest⟩
    refine ⟨[], q :: qs, ?_, fun h => absurd h (by decide), fun _ hc => absurd hc List.not_mem_nil, ?_⟩
    · rw [List.intercalate_cons_cons]
      rfl
    · intro p hp
      rcases List.mem_cons.mp hp with rfl | hp
      · exact ⟨hq rfl, hbytes⟩
      · exact hrest p hp

theorem localTail_char (hdot : c ≠ dotByte) : LocalTail opened (c :: l) ↔ LocalByte c ∧ LocalTail true l := by
  constructor
  · rintro ⟨r, rs, hl, -, hbytes, hrest⟩
    rcases Lib.intercalate_eq_cons_iff.mp hl.symm with ⟨r', rfl, rfl⟩ | ⟨-, hc, -⟩
    · exact ⟨hbytes c List.mem_cons_self, r', rs, rfl, fun h => absurd h (by decide),
        fun b hb => hbytes b (List.mem_cons_of_mem c hb), hrest⟩
    · exact absurd hc hdot
  · rintro ⟨hc, r, rs, rfl, -, hbytes, hrest⟩
    refine ⟨c :: r, rs, ?_, fun _ => List.cons_ne_nil c r, ?_, hrest⟩
    · exact (Lib.intercalate_eq_cons_iff.mpr (Or.inl ⟨r, rfl, rfl⟩)).symm
    · intro b hb
      rcases List.mem_cons.mp hb with rfl | hb
      · exact hc
      · exact hbytes b hb

theorem localRest_nil : ¬LocalRest opened [] := by
  rintro ⟨l, d, hnil, -⟩
  exact List.cons_ne_nil _ _ (List.append_eq_nil_iff.mp hnil.symm).2

theorem localRest_at : LocalRest opened (atByte :: s) ↔ opened = true ∧ DomainPart s := by
  constructor
  · rintro ⟨l, d, hl, htail, hdomain⟩
    cases l with
    | nil =>
        obtain ⟨-, rfl⟩ := List.cons.inj hl
        exact ⟨localTail_nil.mp htail, hdomain⟩
    | cons b l =>
        obtain ⟨rfl, -⟩ := List.cons.inj hl
        exact absurd ((localTail_char (by decide)).mp htail).1 (by decide)
  · rintro ⟨hopened, hdomain⟩
    exact ⟨[], s, rfl, localTail_nil.mpr hopened, hdomain⟩

/-- Any other character goes into the local part. -/
theorem localRest_cons (hat : c ≠ atByte) :
    LocalRest opened (c :: s) ↔ ∃ l d, s = l ++ atByte :: d ∧ LocalTail opened (c :: l) ∧ DomainPart d := by
  constructor
  · rintro ⟨l, d, hl, htail, hdomain⟩
    cases l with
    | nil => exact absurd (List.cons.inj hl).1 hat
    | cons b l =>
        obtain ⟨rfl, rfl⟩ := List.cons.inj hl
        exact ⟨l, d, rfl, htail, hdomain⟩
  · rintro ⟨l, d, rfl, htail, hdomain⟩
    exact ⟨c :: l, d, rfl, htail, hdomain⟩

theorem localRest_dot : LocalRest opened (dotByte :: s) ↔ opened = true ∧ LocalRest false s := by
  rw [localRest_cons (by decide)]
  constructor
  · rintro ⟨l, d, rfl, htail, hdomain⟩
    obtain ⟨hopened, htail⟩ := localTail_dot.mp htail
    exact ⟨hopened, l, d, rfl, htail, hdomain⟩
  · rintro ⟨hopened, l, d, rfl, htail, hdomain⟩
    exact ⟨l, d, rfl, localTail_dot.mpr ⟨hopened, htail⟩, hdomain⟩

theorem localRest_char (hat : c ≠ atByte) (hdot : c ≠ dotByte) :
    LocalRest opened (c :: s) ↔ LocalByte c ∧ LocalRest true s := by
  rw [localRest_cons hat]
  constructor
  · rintro ⟨l, d, rfl, htail, hdomain⟩
    obtain ⟨hc, htail⟩ := (localTail_char hdot).mp htail
    exact ⟨hc, l, d, rfl, htail, hdomain⟩
  · rintro ⟨hc, l, d, rfl, htail, hdomain⟩
    exact ⟨l, d, rfl, (localTail_char hdot).mpr ⟨hc, htail⟩, hdomain⟩

theorem emailAddress_iff : EmailAddress v ↔ LocalRest false v := by
  constructor
  · rintro ⟨l, d, rfl, hlocal, hdomain⟩
    exact ⟨l, d, rfl, localPart_iff.mp hlocal, hdomain⟩
  · rintro ⟨l, d, rfl, htail, hdomain⟩
    exact ⟨l, d, rfl, localPart_iff.mpr htail, hdomain⟩

/-! ## What is left of the domain -/

/-- The end of a domain: `dotted` behind a dot of the domain, `last` the last character of the label that has been begun. -/
def DomainTail (dotted : Bool) (last : Option UInt8) (d : Bytes) : Prop :=
  ∃ r rs, d = [dotByte].intercalate (r :: rs) ∧ (∀ c ∈ r, LabelByte c) ∧
    (last = none → r ≠ [] ∧ r.head? ≠ some hyphenByte) ∧ (last.toList ++ r).getLast? ≠ some hyphenByte ∧
    (dotted = false → rs ≠ []) ∧ ∀ q ∈ rs, DomainLabel q

variable {dotted : Bool} {last : Option UInt8}

theorem domainPart_iff : DomainPart d ↔ DomainTail false none d := by
  constructor
  · rintro ⟨labels, hcount, hall, rfl⟩
    obtain ⟨r, rs, rfl⟩ := List.exists_cons_of_length_pos (show 0 < labels.length by omega)
    obtain ⟨hne, hbytes, hhead, hend⟩ := hall r List.mem_cons_self
    refine ⟨r, rs, rfl, hbytes, fun _ => ⟨hne, hhead⟩, hend, fun _ hnil => ?_, fun q hq => hall q (List.mem_cons_of_mem r hq)⟩
    rw [hnil] at hcount
    exact absurd hcount (Nat.not_succ_le_self 1)
  · rintro ⟨r, rs, rfl, hbytes, hbegin, hend, hmore, hrest⟩
    refine ⟨r :: rs, ?_, ?_, rfl⟩
    · have hpos := List.length_pos_iff.mpr (hmore rfl)
      rw [List.length_cons]
      omega
    · intro q hq
      rcases List.mem_cons.mp hq with rfl | hq
      · exact ⟨(hbegin rfl).1, hbytes, (hbegin rfl).2, hend⟩
      · exact hrest q hq

theorem domainTail_nil : DomainTail dotted last [] ↔ dotted = true ∧ last ≠ none ∧ last ≠ some hyphenByte := by
  constructor
  · rintro ⟨r, rs, hnil, -, hbegin, hend, hmore, -⟩
    obtain ⟨rfl, rfl⟩ := Lib.intercalate_eq_nil_iff.mp hnil.symm
    refine ⟨?_, fun hnone => (hbegin hnone).1 rfl, ?_⟩
    · by_contra hundotted
      exact hmore (Bool.eq_false_iff.mpr hundotted) rfl
    · rintro rfl
      exact hend rfl
  · rintro ⟨rfl, hlast, hhyphen⟩
    refine ⟨[], [], rfl, fun _ hc => absurd hc List.not_mem_nil, fun hnone => absurd hnone hlast, ?_,
      fun h => absurd h (by decide), fun _ hq => absurd hq List.not_mem_nil⟩
    cases last with
    | none => exact absurd rfl hlast
    | some c => exact hhyphen

/-- A dot ends a label that ends well. -/
theorem domainTail_dot : DomainTail dotted last (dotByte :: d) ↔
    (last ≠ none ∧ last ≠ some hyphenByte) ∧ DomainTail true none d := by
  constructor
  · rintro ⟨r, rs, hd, hbytes, hbegin, hend, -, hrest⟩
    rcases Lib.intercalate_eq_cons_iff.mp hd.symm with ⟨r', rfl, -⟩ | ⟨rfl, -, q, qs, rfl, rfl⟩
    · exact absurd rfl (hbytes dotByte List.mem_cons_self).isLocal.ne_dot
    · obtain ⟨hne, hqbytes, hqhead, hqend⟩ := hrest q List.mem_cons_self
      refine ⟨⟨fun hnone => (hbegin hnone).1 rfl, ?_⟩, q, qs, rfl, hqbytes, fun _ => ⟨hne, hqhead⟩, hqend,
        fun h => absurd h (by decide), fun p hp => hrest p (List.mem_cons_of_mem q hp)⟩
      rintro rfl
      exact hend rfl
  · rintro ⟨⟨hlast, hhyphen⟩, q, qs, rfl, hqbytes, hqbegin, hqend, -, hrest⟩
    refine ⟨[], q :: qs, ?_, fun _ hc => absurd hc List.not_mem_nil, fun hnone => absurd hnone hlast, ?_,
      fun _ => List.cons_ne_nil q qs, ?_⟩
    · rw [List.intercalate_cons_cons]
      rfl
    · cases last with
      | none => exact absurd rfl hlast
      | some c => exact hhyphen
    · intro p hp
      rcases List.mem_cons.mp hp with rfl | hp
      · exact ⟨(hqbegin rfl).1, hqbytes, (hqbegin rfl).2, hqend⟩
      · exact hrest p hp

theorem domainTail_char (hdot : c ≠ dotByte) : DomainTail dotted last (c :: d) ↔
    (LabelByte c ∧ ¬(last = none ∧ c = hyphenByte)) ∧ DomainTail dotted (some c) d := by
  constructor
  · rintro ⟨r, rs, hd, hbytes, hbegin, hend, hmore, hrest⟩
    rcases Lib.intercalate_eq_cons_iff.mp hd.symm with ⟨r', rfl, rfl⟩ | ⟨-, hc, -⟩
    · refine ⟨⟨hbytes c List.mem_cons_self, ?_⟩, r', rs, rfl, fun b hb => hbytes b (List.mem_cons_of_mem c hb),
        fun hnone => absurd hnone (Option.some_ne_none c), ?_, hmore, hrest⟩
      · rintro ⟨hnone, rfl⟩
        exact (hbegin hnone).2 rfl
      · rw [List.getLast?_append_cons] at hend
        exact hend
    · exact absurd hc hdot
  · rintro ⟨⟨hc, hfirst⟩, r, rs, rfl, hbytes, -, hend, hmore, hrest⟩
    refine ⟨c :: r, rs, (Lib.intercalate_eq_cons_iff.mpr (Or.inl ⟨r, rfl, rfl⟩)).symm, ?_, ?_, ?_, hmore, hrest⟩
    · intro b hb
      rcases List.mem_cons.mp hb with rfl | hb
      · exact hc
      · exact hbytes b hb
    · intro hnone
      exact ⟨List.cons_ne_nil c r, fun hhead => hfirst ⟨hnone, Option.some.inj hhead⟩⟩
    · rw [List.getLast?_append_cons]
      exact hend

/-! ## The loop -/

/-- A run has been begun in front of `i`. -/
def openedAt (v : Bytes) (i : Nat) : Bool := decide (i ≠ 0 ∧ v[i - 1]? ≠ some dotByte)

theorem behindDot_ok {i : Nat} (hi : i ≤ v.length) : behindDot v i = .ok (!openedAt v i) := by
  unfold behindDot openedAt
  by_cases hzero : i = 0
  · rw [if_pos hzero, decide_eq_false (fun h => h.1 hzero)]
    rfl
  · have hlt : i - 1 < v.length := by omega
    have hplace : (i : Int) - 1 = ((i - 1 : Nat) : Int) := by omega
    rw [if_neg hzero, hplace, stringGet_ok hlt, List.getElem?_eq_getElem hlt]
    show Except.ok (decide (v[i - 1] = dotByte)) = _
    by_cases hdot : v[i - 1] = dotByte
    · rw [decide_eq_true hdot, decide_eq_false (fun h => h.2 (congrArg some hdot))]
      rfl
    · rw [decide_eq_false hdot, decide_eq_true ⟨hzero, fun h => hdot (Option.some.inj h)⟩]
      rfl

/-- The label that the last character of the domain belongs to: none behind a dot. -/
def lastOfLabel (previous : Option UInt8) : Option UInt8 := if previous = some dotByte then none else previous

/-- What the loop keeps: how the address goes on, or that there is none. -/
inductive EmailInv (v : Bytes) (s : EmailState) : Prop
  | inLocal (hat : s.atSign = -1) (hdot : s.dot = -1) (hfirst : s.firstDomainChar = none)
      (hprevious : s.previousDomainChar = none) (hi : s.i ≤ v.length)
      (hrest : EmailAddress v ↔ LocalRest (openedAt v s.i) (v.drop s.i))
  | inDomain (a : Nat) (dotted : Bool) (hat : s.atSign = a) (ha : 0 < a ∧ a < s.i) (hi : s.i ≤ v.length)
      (hfirst : s.firstDomainChar ≠ some dotByte ∧ s.firstDomainChar ≠ some hyphenByte)
      (hbegun : (s.firstDomainChar = none ↔ s.previousDomainChar = none))
      (hlast : s.lastChar = if s.previousDomainChar = none then some atByte else s.previousDomainChar)
      (hundotted : dotted = false → s.dot = -1)
      (hroom : s.previousDomainChar ≠ none → a + 1 < s.i)
      (hdotted : dotted = true → (a : Int) + 1 < s.dot ∧ s.dot < s.i ∧ s.previousDomainChar ≠ none ∧
        (s.dot + 1 < s.i ∨ s.previousDomainChar = some dotByte))
      (hrest : EmailAddress v ↔ DomainTail dotted (lastOfLabel s.previousDomainChar) (v.drop s.i))
  | lost (hat : 0 ≤ s.atSign) (hfirst : s.firstDomainChar = some dotByte ∨ s.firstDomainChar = some hyphenByte)
      (hi : s.i ≤ v.length) (hno : ¬EmailAddress v)

/-- The last two statements decide. -/
theorem emailEnd_iff {s : EmailState} (hinv : EmailInv v s) (hend : s.i = v.length) :
    emailEnd v.length s = true ↔ EmailAddress v := by
  have hnil : v.drop s.i = [] := by
    rw [hend, List.drop_length]
  cases hinv with
  | inLocal hat hdot hfirst hprevious hi hrest =>
      rw [hnil] at hrest
      have hbefore : s.atSign ≤ 0 ∨ s.atSign ≥ (v.length : Int) - 3 := Or.inl (by omega)
      rw [emailEnd, if_pos hbefore, hrest]
      exact iff_of_false Bool.false_ne_true localRest_nil
  | inDomain a dotted hat ha hi hfirst hbegun hlast hundotted hroom hdotted hrest =>
      rw [hnil, domainTail_nil] at hrest
      rw [hrest]
      constructor
      · intro hok
        unfold emailEnd at hok
        split at hok
        · exact absurd hok Bool.false_ne_true
        · obtain ⟨-, -, hlastDot, hlastHyphen, hplace, -⟩ := of_decide_eq_true hok
          cases dotted with
          | false =>
              have hnone := hundotted rfl
              omega
          | true =>
              obtain ⟨-, -, hprevious, -⟩ := hdotted rfl
              rw [if_neg hprevious] at hlast
              rw [hlast] at hlastDot hlastHyphen
              rw [lastOfLabel, if_neg hlastDot]
              exact ⟨rfl, hprevious, hlastHyphen⟩
      · rintro ⟨rfl, hsome, hhyphen⟩
        obtain ⟨hplace, -, hprevious, hbehind⟩ := hdotted rfl
        have hnotDot : s.previousDomainChar ≠ some dotByte := by
          intro hdot
          rw [lastOfLabel, if_pos hdot] at hsome
          exact hsome rfl
        rw [lastOfLabel, if_neg hnotDot] at hhyphen
        rw [if_neg hprevious] at hlast
        have hroom : s.dot + 1 < s.i := hbehind.resolve_right hnotDot
        rw [emailEnd, if_neg (by omega), decide_eq_true_iff, hlast]
        exact ⟨hfirst.1, hfirst.2, hnotDot, hhyphen, by omega, by omega⟩
  | lost hat hfirst hi hno =>
      refine iff_of_false (fun hok => ?_) hno
      unfold emailEnd at hok
      split at hok
      · exact absurd hok Bool.false_ne_true
      · obtain ⟨hnotDot, hnotHyphen, -⟩ := of_decide_eq_true hok
        rcases hfirst with hbad | hbad
        · exact hnotDot hbad
        · exact hnotHyphen hbad

/-- The state behind a character. -/
def behind (s : EmailState) (ch : UInt8) : EmailState := { s with lastChar := some ch, i := s.i + 1 }

/-- What a character is answered with: no address, or the next state. -/
def Answers (v : Bytes) (ch : UInt8) : Option EmailState → Prop
  | none => ¬EmailAddress v
  | some s => blankChar ch = false ∧ EmailInv v (behind s ch)

theorem openedAt_succ {i : Nat} (hi : v[i]? = some c) : openedAt v (i + 1) = decide (c ≠ dotByte) := by
  unfold openedAt
  rw [Nat.add_sub_cancel, hi]
  rw [decide_eq_decide]
  exact ⟨fun h heq => h.2 (congrArg some heq), fun h => ⟨Nat.succ_ne_zero i, fun heq => h (Option.some.inj heq)⟩⟩

/-- A character in front of the at sign, or the at sign. -/
theorem emailChar_local {s : EmailState} (hat : s.atSign = -1) (hdot : s.dot = -1) (hfirst : s.firstDomainChar = none)
    (hprevious : s.previousDomainChar = none) (hlt : s.i < v.length) (hc : v[s.i]? = some c)
    (hrest : EmailAddress v ↔ LocalRest (openedAt v s.i) (c :: v.drop (s.i + 1))) :
    ∃ o, emailChar v s c = .ok o ∧ Answers v c o := by
  have hbehind := behindDot_ok (Nat.le_of_lt hlt)
  unfold emailChar
  by_cases hsign : c = atByte
  · rw [if_pos hsign, if_neg (not_not.mpr hat), hbehind]
    rw [hsign, localRest_at] at hrest
    cases hopened : openedAt v s.i with
    | false =>
        refine ⟨none, rfl, ?_⟩
        show ¬EmailAddress v
        rw [hrest, hopened]
        exact fun h => absurd h.1 Bool.false_ne_true
    | true =>
        refine ⟨some { s with atSign := s.i }, rfl, ?_, ?_⟩
        · rw [hsign]
          rfl
        · have hpos : 0 < s.i := by
            by_contra hzero
            exact absurd hopened (by rw [openedAt, decide_eq_false (fun h => h.1 (by omega))]; exact Bool.false_ne_true)
          refine EmailInv.inDomain s.i false rfl ⟨hpos, Nat.lt_succ_self _⟩ hlt ?_ ?_ ?_ (fun _ => hdot)
            (fun h => absurd hprevious h) (fun h => absurd h (by decide)) ?_
          · show s.firstDomainChar ≠ _ ∧ s.firstDomainChar ≠ _
            rw [hfirst]
            exact ⟨nofun, nofun⟩
          · show s.firstDomainChar = none ↔ s.previousDomainChar = none
            rw [hfirst, hprevious]
          · show some c = if s.previousDomainChar = none then _ else _
            rw [if_pos hprevious, hsign]
          · show EmailAddress v ↔ DomainTail false (lastOfLabel s.previousDomainChar) (v.drop (s.i + 1))
            rw [hrest, hopened, hprevious, and_iff_right rfl, domainPart_iff]
            rfl
  · rw [if_neg hsign, if_pos hat]
    have hnext : ∀ o, openedAt v (s.i + 1) = o → (EmailAddress v ↔ LocalRest o (v.drop (s.i + 1))) →
        EmailInv v (behind s c) := fun o ho h =>
      EmailInv.inLocal hat hdot hfirst hprevious hlt (by
        show EmailAddress v ↔ LocalRest (openedAt v (s.i + 1)) (v.drop (s.i + 1))
        rw [ho]
        exact h)
    by_cases hisDot : c = dotByte
    · rw [if_pos hisDot, hbehind]
      rw [hisDot, localRest_dot] at hrest
      cases hopened : openedAt v s.i with
      | false =>
          refine ⟨none, rfl, ?_⟩
          show ¬EmailAddress v
          rw [hrest, hopened]
          exact fun h => absurd h.1 Bool.false_ne_true
      | true =>
          refine ⟨some s, rfl, ?_, hnext false ?_ ?_⟩
          · rw [hisDot]
            rfl
          · rw [openedAt_succ hc, decide_eq_false (not_not.mpr hisDot)]
          · rw [hrest, hopened]
            exact and_iff_right rfl
    · rw [if_neg hisDot]
      rw [localRest_char hsign hisDot] at hrest
      by_cases hbyte : LocalByte c
      · rw [localChar_iff.mpr hbyte]
        refine ⟨some s, rfl, hbyte.not_blank, hnext true ?_ ?_⟩
        · rw [openedAt_succ hc, decide_eq_true hisDot]
        · rw [hrest]
          exact and_iff_right hbyte
      · have hother : localChar c = false := Bool.eq_false_iff.mpr fun h => hbyte (localChar_iff.mp h)
        rw [hother]
        refine ⟨none, rfl, ?_⟩
        show ¬EmailAddress v
        rw [hrest]
        exact fun h => hbyte h.1

theorem lastOfLabel_dot : lastOfLabel (some dotByte) = none := if_pos rfl

theorem lastOfLabel_char (h : c ≠ dotByte) : lastOfLabel (some c) = some c := if_neg fun heq => h (Option.some.inj heq)

/-- A dot in the domain. -/
theorem domainChar_dot {s : EmailState} {a : Nat} {dotted : Bool} (hat : s.atSign = a) (ha : 0 < a ∧ a < s.i)
    (hlt : s.i < v.length) (hfirst : s.firstDomainChar ≠ some dotByte ∧ s.firstDomainChar ≠ some hyphenByte)
    (hbegun : s.firstDomainChar = none ↔ s.previousDomainChar = none) (hroom : s.previousDomainChar ≠ none → a + 1 < s.i)
    (hrest : EmailAddress v ↔ DomainTail dotted (lastOfLabel s.previousDomainChar) (dotByte :: v.drop (s.i + 1))) :
    Answers v dotByte (domainChar s dotByte) := by
  rw [domainTail_dot] at hrest
  unfold domainChar
  dsimp only
  rw [if_pos rfl]
  by_cases hbad : s.previousDomainChar = some dotByte ∨ s.previousDomainChar = some hyphenByte
  · rw [if_pos hbad]
    show ¬EmailAddress v
    rw [hrest]
    rintro ⟨⟨hsome, hhyphen⟩, -⟩
    rcases hbad with hdot | hdash
    · rw [hdot] at hsome
      exact hsome lastOfLabel_dot
    · rw [hdash] at hhyphen
      exact hhyphen (lastOfLabel_char (by decide))
  · rw [if_neg hbad]
    refine ⟨rfl, ?_⟩
    cases hprevious : s.previousDomainChar with
    | none =>
        -- The first character of the domain.
        refine EmailInv.lost ?_ (Or.inl ?_) hlt ?_
        · show 0 ≤ s.atSign
          omega
        · show (if s.firstDomainChar = none then some dotByte else s.firstDomainChar) = some dotByte
          rw [if_pos (hbegun.mpr hprevious)]
        · rw [hrest, hprevious]
          exact fun h => h.1.1 rfl
    | some p =>
        have hsome : s.previousDomainChar ≠ none := by
          rw [hprevious]
          exact Option.some_ne_none p
        have hnotDot : p ≠ dotByte := fun heq => hbad (Or.inl (by rw [hprevious, heq]))
        have hnotDash : p ≠ hyphenByte := fun heq => hbad (Or.inr (by rw [hprevious, heq]))
        have hplace := hroom hsome
        refine EmailInv.inDomain a true hat ⟨ha.1, Nat.lt_succ_of_lt ha.2⟩ hlt ?_ ?_ ?_ (fun h => absurd h (by decide))
          (fun _ => Nat.lt_succ_of_lt hplace) (fun _ => ⟨?_, ?_, Option.some_ne_none dotByte, Or.inr rfl⟩) ?_
        · show (if s.firstDomainChar = none then some dotByte else s.firstDomainChar) ≠ _ ∧ _ ≠ _
          rw [if_neg fun hnone => hsome (hbegun.mp hnone)]
          exact hfirst
        · show (if s.firstDomainChar = none then some dotByte else s.firstDomainChar) = none ↔ some dotByte = none
          rw [if_neg fun hnone => hsome (hbegun.mp hnone)]
          exact iff_of_false (fun hnone => hsome (hbegun.mp hnone)) (Option.some_ne_none dotByte)
        · rfl
        · show (a : Int) + 1 < s.i
          omega
        · show (s.i : Int) < ((s.i + 1 : Nat) : Int)
          omega
        · show EmailAddress v ↔ DomainTail true (lastOfLabel (some dotByte)) (v.drop (s.i + 1))
          rw [hrest, hprevious, lastOfLabel_dot, lastOfLabel_char hnotDot]
          exact and_iff_right ⟨Option.some_ne_none p, fun heq => hnotDash (Option.some.inj heq)⟩

/-- Any other character in the domain. -/
theorem domainChar_other {s : EmailState} {a : Nat} {dotted : Bool} (hdot : c ≠ dotByte) (hat : s.atSign = a)
    (ha : 0 < a ∧ a < s.i) (hlt : s.i < v.length)
    (hfirst : s.firstDomainChar ≠ some dotByte ∧ s.firstDomainChar ≠ some hyphenByte)
    (hbegun : s.firstDomainChar = none ↔ s.previousDomainChar = none) (hundotted : dotted = false → s.dot = -1)
    (hroom : s.previousDomainChar ≠ none → a + 1 < s.i)
    (hdotted : dotted = true → (a : Int) + 1 < s.dot ∧ s.dot < s.i ∧ s.previousDomainChar ≠ none ∧
      (s.dot + 1 < s.i ∨ s.previousDomainChar = some dotByte))
    (hrest : EmailAddress v ↔ DomainTail dotted (lastOfLabel s.previousDomainChar) (c :: v.drop (s.i + 1))) :
    Answers v c (domainChar s c) := by
  rw [domainTail_char hdot] at hrest
  unfold domainChar
  dsimp only
  rw [if_neg hdot]
  by_cases hbyte : LabelByte c
  · rw [labelChar_iff.mpr hbyte, if_neg (by decide)]
    by_cases hdash : s.previousDomainChar = some dotByte ∧ c = hyphenByte
    · rw [if_pos hdash]
      show ¬EmailAddress v
      rw [hrest, hdash.1, lastOfLabel_dot]
      exact fun h => h.1.2 ⟨rfl, hdash.2⟩
    · rw [if_neg hdash]
      refine ⟨hbyte.isLocal.not_blank, ?_⟩
      cases hprevious : s.previousDomainChar with
      | none =>
          have hnone : s.firstDomainChar = none := hbegun.mpr hprevious
          by_cases hhyphen : c = hyphenByte
          · refine EmailInv.lost ?_ (Or.inr ?_) hlt ?_
            · show 0 ≤ s.atSign
              omega
            · show (if s.firstDomainChar = none then some c else s.firstDomainChar) = some hyphenByte
              rw [if_pos hnone, hhyphen]
            · rw [hrest, hprevious]
              exact fun h => h.1.2 ⟨rfl, hhyphen⟩
          · refine EmailInv.inDomain a dotted hat ⟨ha.1, Nat.lt_succ_of_lt ha.2⟩ hlt ?_ ?_ ?_ hundotted ?_ ?_ ?_
            · show (if s.firstDomainChar = none then some c else s.firstDomainChar) ≠ _ ∧ (if _ then _ else _) ≠ _
              rw [if_pos hnone]
              exact ⟨fun heq => hdot (Option.some.inj heq), fun heq => hhyphen (Option.some.inj heq)⟩
            · show (if s.firstDomainChar = none then some c else s.firstDomainChar) = none ↔ some c = none
              rw [if_pos hnone]
            · rfl
            · intro _
              exact Nat.succ_lt_succ ha.2
            · intro hyes
              exact absurd hprevious (hdotted hyes).2.2.1
            · show EmailAddress v ↔ DomainTail dotted (lastOfLabel (some c)) (v.drop (s.i + 1))
              rw [hrest, hprevious, lastOfLabel_char hdot]
              exact and_iff_right ⟨hbyte, fun h => hhyphen h.2⟩
      | some p =>
          have hsome : s.previousDomainChar ≠ none := by
            rw [hprevious]
            exact Option.some_ne_none p
          have hplace := hroom hsome
          refine EmailInv.inDomain a dotted hat ⟨ha.1, Nat.lt_succ_of_lt ha.2⟩ hlt ?_ ?_ ?_ hundotted ?_ ?_ ?_
          · show (if s.firstDomainChar = none then some c else s.firstDomainChar) ≠ _ ∧ (if _ then _ else _) ≠ _
            rw [if_neg fun hnone => hsome (hbegun.mp hnone)]
            exact hfirst
          · show (if s.firstDomainChar = none then some c else s.firstDomainChar) = none ↔ some c = none
            rw [if_neg fun hnone => hsome (hbegun.mp hnone)]
            exact iff_of_false (fun hnone => hsome (hbegun.mp hnone)) (Option.some_ne_none c)
          · rfl
          · intro _
            exact Nat.lt_succ_of_lt hplace
          · intro hyes
            obtain ⟨hfar, hbefore, -, -⟩ := hdotted hyes
            refine ⟨hfar, ?_, Option.some_ne_none c, Or.inl ?_⟩
            · show s.dot < ((s.i + 1 : Nat) : Int)
              omega
            · show s.dot + 1 < ((s.i + 1 : Nat) : Int)
              omega
          · show EmailAddress v ↔ DomainTail dotted (lastOfLabel (some c)) (v.drop (s.i + 1))
            rw [hrest, lastOfLabel_char hdot]
            refine and_iff_right ⟨hbyte, fun h => hdash ⟨?_, h.2⟩⟩
            by_contra hnotDot
            rw [lastOfLabel, if_neg hnotDot] at h
            exact hsome h.1
  · have hother : labelChar c = false := Bool.eq_false_iff.mpr fun h => hbyte (labelChar_iff.mp h)
    rw [hother, if_pos (by decide)]
    show ¬EmailAddress v
    rw [hrest]
    exact fun h => hbyte h.1.1

/-- Behind a bad first character of the domain nothing helps. -/
theorem domainChar_lost {s : EmailState} (hat : 0 ≤ s.atSign)
    (hfirst : s.firstDomainChar = some dotByte ∨ s.firstDomainChar = some hyphenByte) (hlt : s.i < v.length)
    (hno : ¬EmailAddress v) : Answers v c (domainChar s c) := by
  have hsome : s.firstDomainChar ≠ none := by
    rcases hfirst with h | h <;> rw [h] <;> exact Option.some_ne_none _
  have hnext : ∀ s', s'.atSign = s.atSign → s'.firstDomainChar = s.firstDomainChar → s'.i = s.i →
      EmailInv v (behind s' c) := fun s' hat' hfirst' hi' => by
    refine EmailInv.lost ?_ ?_ ?_ hno
    · show 0 ≤ s'.atSign
      rw [hat']
      exact hat
    · show s'.firstDomainChar = _ ∨ s'.firstDomainChar = _
      rw [hfirst']
      exact hfirst
    · show s'.i + 1 ≤ v.length
      rw [hi']
      exact hlt
  unfold domainChar
  dsimp only
  rw [if_neg hsome]
  by_cases hdot : c = dotByte
  · rw [if_pos hdot]
    split
    · exact hno
    · refine ⟨?_, hnext _ rfl rfl rfl⟩
      rw [hdot]
      rfl
  · rw [if_neg hdot]
    by_cases hbyte : LabelByte c
    · rw [labelChar_iff.mpr hbyte, if_neg (by decide)]
      split
      · exact hno
      · exact ⟨hbyte.isLocal.not_blank, hnext _ rfl rfl rfl⟩
    · have hother : labelChar c = false := Bool.eq_false_iff.mpr fun h => hbyte (labelChar_iff.mp h)
      rw [hother, if_pos (by decide)]
      exact hno

theorem emailChar_ok {s : EmailState} (hinv : EmailInv v s) (hc : v[s.i]? = some c) :
    ∃ o, emailChar v s c = .ok o ∧ Answers v c o := by
  obtain ⟨hlt, hvalue⟩ := List.getElem?_eq_some_iff.mp hc
  have hdrop : v.drop s.i = c :: v.drop (s.i + 1) := by
    rw [List.drop_eq_getElem_cons hlt, hvalue]
  cases hinv with
  | inLocal hat hdot hfirst hprevious hi hrest =>
      rw [hdrop] at hrest
      exact emailChar_local hat hdot hfirst hprevious hlt hc hrest
  | inDomain a dotted hat ha hi hfirst hbegun hlast hundotted hroom hdotted hrest =>
      rw [hdrop] at hrest
      have hpassed : s.atSign ≠ -1 := by omega
      unfold emailChar
      by_cases hsign : c = atByte
      · -- A second at sign.
        rw [if_pos hsign, if_pos hpassed]
        refine ⟨none, rfl, ?_⟩
        show ¬EmailAddress v
        rw [hrest, hsign, domainTail_char (by decide)]
        exact fun h => absurd h.1.1 (by decide)
      · rw [if_neg hsign, if_neg hpassed]
        refine ⟨domainChar s c, rfl, ?_⟩
        by_cases hdot : c = dotByte
        · rw [hdot] at hrest ⊢
          exact domainChar_dot hat ha hlt hfirst hbegun hroom hrest
        · exact domainChar_other hdot hat ha hlt hfirst hbegun hundotted hroom hdotted hrest
  | lost hat hfirst hi hno =>
      have hpassed : s.atSign ≠ -1 := by omega
      unfold emailChar
      by_cases hsign : c = atByte
      · rw [if_pos hsign, if_pos hpassed]
        exact ⟨none, rfl, hno⟩
      · rw [if_neg hsign, if_neg hpassed]
        exact ⟨domainChar s c, rfl, domainChar_lost hat hfirst hlt hno⟩

theorem EmailInv.place_le {s : EmailState} (h : EmailInv v s) : s.i ≤ v.length := by
  cases h with
  | inLocal _ _ _ _ hi _ => exact hi
  | inDomain _ _ _ _ hi _ _ _ _ _ _ _ => exact hi
  | lost _ _ hi _ => exact hi

theorem domainChar_place {s s' : EmailState} (h : domainChar s c = some s') : s'.i = s.i := by
  unfold domainChar at h
  dsimp only at h
  split_ifs at h <;> cases h <;> rfl

/-- The body of the loop leaves `i` alone. -/
theorem emailChar_place {s s' : EmailState} (hi : s.i ≤ v.length) (h : emailChar v s c = .ok (some s')) : s'.i = s.i := by
  unfold emailChar at h
  rw [behindDot_ok hi] at h
  by_cases hsign : c = atByte
  · rw [if_pos hsign] at h
    split at h
    · cases h
    · cases hopened : openedAt v s.i with
      | false =>
          rw [hopened] at h
          cases h
      | true =>
          rw [hopened] at h
          cases h
          rfl
  · rw [if_neg hsign] at h
    split at h
    · split at h
      · cases hopened : openedAt v s.i with
        | false =>
            rw [hopened] at h
            cases h
        | true =>
            rw [hopened] at h
            cases h
            rfl
      · split at h <;> cases h
        rfl
    · exact domainChar_place (Except.ok.inj h)

theorem emailTurn_ok {s : EmailState} (hinv : EmailInv v s) : ∃ turn, emailTurn v s = .ok turn ∧
    Lib.Advances (EmailInv v) (fun b => b = true ↔ EmailAddress v) (fun s => v.length - s.i) s turn := by
  by_cases hlt : s.i < v.length
  · have hc : v[s.i]? = some v[s.i] := List.getElem?_eq_getElem hlt
    have hturn : emailTurn v s = (emailChar v s v[s.i] >>= fun answer =>
        match answer with
        | none => pure (.done false)
        | some s' => if blankChar v[s.i] then pure (.done false) else pure (.next (behind s' v[s.i]))) := by
      rw [emailTurn, if_pos hlt, stringGet_ok hlt]
      rfl
    obtain ⟨o, hrun, hanswers⟩ := emailChar_ok hinv hc
    rw [hturn, hrun]
    cases o with
    | none => exact ⟨.done false, rfl, iff_of_false Bool.false_ne_true hanswers⟩
    | some s' =>
        obtain ⟨hblank, hnext⟩ := hanswers
        have hplace := emailChar_place hinv.place_le hrun
        refine ⟨.next (behind s' v[s.i]), ?_, hnext, ?_⟩
        · show (if blankChar v[s.i] = true then _ else _) = _
          rw [hblank]
          rfl
        · show v.length - (s'.i + 1) < v.length - s.i
          omega
  · refine ⟨.done (emailEnd v.length s), ?_, emailEnd_iff hinv (Nat.le_antisymm hinv.place_le (Nat.le_of_not_lt hlt))⟩
    rw [emailTurn, if_neg hlt]
    rfl

/-! ## The whole check -/

theorem blankValue_ok (v : Bytes) : ∃ b, blankValue v = .ok b ∧ (b = true → ∀ c ∈ v, blankChar c = true) := by
  -- Everything in front of `i` is blank.
  apply @whileLoop_total _ _ (blankTurn v) (v.length + 1) 0
    (fun i => i ≤ v.length ∧ ∀ c ∈ v.take i, blankChar c = true) _ (fun i => v.length - i) ?_
    ⟨Nat.zero_le _, fun _ hc => absurd hc List.not_mem_nil⟩ (Nat.lt_succ_self _)
  rintro i ⟨hi, hblank⟩
  by_cases hlt : i < v.length
  · have hturn : blankTurn v i = if !blankChar v[i] then .ok (.done false) else .ok (.next (i + 1)) := by
      rw [blankTurn, if_pos hlt, stringGet_ok hlt]
      rfl
    rw [hturn]
    cases hc : blankChar v[i] with
    | false => exact ⟨.done false, rfl, fun h => absurd h Bool.false_ne_true⟩
    | true =>
        refine ⟨.next (i + 1), rfl, ⟨hlt, ?_⟩, ?_⟩
        · intro c hmem
          rw [List.take_succ_eq_append_getElem hlt] at hmem
          rcases List.mem_append.mp hmem with hbefore | hlast
          · exact hblank c hbefore
          · rw [List.mem_singleton.mp hlast]
            exact hc
        · show v.length - (i + 1) < v.length - i
          omega
  · refine ⟨.done true, ?_, fun _ => ?_⟩
    · rw [blankTurn, if_neg hlt]
      rfl
    · rw [List.take_of_length_le (Nat.le_of_not_lt hlt)] at hblank
      exact hblank

theorem length_intercalate_cons (r : Bytes) (rs : List Bytes) : r.length ≤ ([dotByte].intercalate (r :: rs)).length := by
  cases rs with
  | nil => rw [List.intercalate_singleton]
  | cons q qs =>
      rw [List.intercalate_cons_cons, List.length_append, List.length_append]
      omega

/-- The shortest address has five characters. -/
theorem EmailAddress.length_le (h : EmailAddress v) : 5 ≤ v.length := by
  obtain ⟨l, d, rfl, ⟨runs, hruns, hlocal, rfl⟩, labels, hcount, hdomain, rfl⟩ := h
  obtain ⟨r, rs, rfl⟩ := List.exists_cons_of_ne_nil hruns
  obtain ⟨p, q, qs, rfl⟩ : ∃ p q qs, labels = p :: q :: qs := by
    match labels, hcount with
    | p :: q :: qs, _ => exact ⟨p, q, qs, rfl⟩
  have hr := List.length_pos_iff.mpr (hlocal r List.mem_cons_self).1
  have hp := List.length_pos_iff.mpr (hdomain p List.mem_cons_self).1
  have hq := List.length_pos_iff.mpr (hdomain q (List.mem_cons_of_mem p List.mem_cons_self)).1
  have hfront := length_intercalate_cons r rs
  have hback := length_intercalate_cons q qs
  rw [List.length_append, List.length_cons, List.intercalate_cons_cons, List.length_append, List.length_append,
    List.length_singleton]
  omega

/-- `looks_like_email` accepts its grammar, and nothing else. -/
theorem looksLikeEmail_exact (v : Bytes) : ∃ b, looksLikeEmail v = .ok b ∧ (b = true ↔ EmailAddress v) := by
  unfold looksLikeEmail
  by_cases hshort : v.length < 5
  · rw [if_pos hshort]
    exact ⟨false, rfl, iff_of_false Bool.false_ne_true fun h => absurd h.length_le (Nat.not_le_of_lt hshort)⟩
  rw [if_neg hshort]
  obtain ⟨blank, hrun, hblank⟩ := blankValue_ok v
  rw [hrun]
  cases blank with
  | true =>
      refine ⟨false, rfl, iff_of_false Bool.false_ne_true ?_⟩
      rintro ⟨l, d, rfl, -⟩
      exact absurd (hblank rfl atByte (List.mem_append_right l List.mem_cons_self)) (by decide)
  | false =>
      have hstart : EmailInv v emailStart := EmailInv.inLocal rfl rfl rfl rfl (Nat.zero_le _) emailAddress_iff
      exact @whileLoop_total _ _ (emailTurn v) (v.length + 1) emailStart (EmailInv v)
        (fun b => b = true ↔ EmailAddress v) (fun s => v.length - s.i) (fun _ hinv => emailTurn_ok hinv) hstart
        (Nat.lt_succ_self _)

end Vnt.StdLib
