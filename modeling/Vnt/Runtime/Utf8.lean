import Vnt.Lib.Loop
import Vnt.Lib.Units
import Vnt.Runtime.BigInt

/-!
# `Runtime.Utf8` — lengths and slices of UTF-8 strings

`vnt_utf8_unit` looks at up to four bytes and takes anything that is not the encoding of a character for a unit of one byte.
A string is read byte by byte; its terminator can be read, what is behind it cannot.
-/

namespace Vnt.Runtime

open Lib (Turn UnitRule)
open Net (Bytes)

inductive Utf8Error where
  /-- A read behind the terminator. -/
  | pastTerminator
  | negative
  | outOfClock
  deriving DecidableEq, Repr

/-- `p[i]` -/
def charAt (s : Bytes) (i : Nat) : Except Utf8Error UInt8 :=
  match s[i]? with
  | some c => .ok c
  | none => if i = s.length then .ok 0 else .error .pastTerminator

/-- `(b & 0xC0) == 0x80` -/
def isTail (b : UInt8) : Bool := b &&& 0xC0 = 0x80

/-- The first test of `vnt_utf8_unit` that can say two. -/
def startsTwo (s : Bytes) (i : Nat) (p0 : UInt8) : Except Utf8Error Bool :=
  if 0xC2 ≤ p0 ∧ p0 ≤ 0xDF then do
    let p1 ← charAt s (i + 1)
    pure (p1 ≠ 0 ∧ isTail p1)
  else pure false

def startsThree (s : Bytes) (i : Nat) (p0 : UInt8) : Except Utf8Error Bool :=
  if 0xE0 ≤ p0 ∧ p0 ≤ 0xEF then do
    let p1 ← charAt s (i + 1)
    if p1 ≠ 0 then do
      let p2 ← charAt s (i + 2)
      pure (p2 ≠ 0 ∧ isTail p1 ∧ isTail p2 ∧ ¬(p0 = 0xE0 ∧ p1 < 0xA0) ∧ ¬(p0 = 0xED ∧ p1 ≥ 0xA0))
    else pure false
  else pure false

def startsFour (s : Bytes) (i : Nat) (p0 : UInt8) : Except Utf8Error Bool :=
  if 0xF0 ≤ p0 ∧ p0 ≤ 0xF4 then do
    let p1 ← charAt s (i + 1)
    if p1 ≠ 0 then do
      let p2 ← charAt s (i + 2)
      if p2 ≠ 0 then do
        let p3 ← charAt s (i + 3)
        pure (p3 ≠ 0 ∧ isTail p1 ∧ isTail p2 ∧ isTail p3 ∧ ¬(p0 = 0xF0 ∧ p1 < 0x90) ∧ ¬(p0 = 0xF4 ∧ p1 ≥ 0x90))
      else pure false
    else pure false
  else pure false

def utf8Unit (s : Bytes) (i : Nat) : Except Utf8Error Nat := do
  let p0 ← charAt s i
  if p0 < 0x80 then pure 1
  else if ← startsTwo s i p0 then pure 2
  else if ← startsThree s i p0 then pure 3
  else if ← startsFour s i p0 then pure 4
  else pure 1

/-- `while (*p) { … }` of `vnt_utf8_len`. -/
def lenTurn (s : Bytes) : Nat × Nat → Except Utf8Error (Turn (Nat × Nat) Nat)
  | (p, count) => do
      let c ← charAt s p
      if c ≠ 0 then do
        let n ← utf8Unit s p
        if count = 2 ^ 63 - 1 then pure (.done count) else pure (.next (p + n, count + 1))
      else pure (.done count)

def utf8Len (s : CString) : Except Utf8Error Nat :=
  Lib.loop .outOfClock (lenTurn s.bytes) (s.bytes.length + 1) (0, 0)

/-- `while (source[begin] && index < start) { … }` -/
def walkTurn (s : Bytes) (limit : Nat) : Nat × Nat → Except Utf8Error (Turn (Nat × Nat) (Nat × Nat))
  | (p, index) => do
      let c ← charAt s p
      if c ≠ 0 ∧ index < limit then do
        let n ← utf8Unit s p
        pure (.next (p + n, index + 1))
      else pure (.done (p, index))

/-- `while (source[end] && index > 0) { … }` -/
def walkBackTurn (s : Bytes) : Nat × Nat → Except Utf8Error (Turn (Nat × Nat) Nat)
  | (p, index) => do
      let c ← charAt s p
      if c ≠ 0 ∧ index > 0 then do
        let n ← utf8Unit s p
        pure (.next (p + n, index - 1))
      else pure (.done p)

/-- `memcpy` of the bytes between two places, and `vnt_string` of the copy. -/
def copyOut (s : CString) (first last : Nat) : Except Utf8Error CString :=
  if h : first ≤ last ∧ last ≤ s.bytes.length then
    .ok {
      bytes := (s.bytes.drop first).take (last - first)
      noNul := fun hmem => s.noNul (List.mem_of_mem_drop (List.mem_of_mem_take hmem))
      fits := by
        have hfits := s.fits
        rw [List.length_take, List.length_drop]
        omega }
  else .error .pastTerminator

def emptyString : CString := ⟨[], List.not_mem_nil, by decide⟩

def utf8Slice (s : CString) (startValue countValue : Int) : Except Utf8Error CString :=
  if startValue < 0 ∨ countValue < 0 then .error .negative
  else do
    let start := startValue.toNat
    let count := countValue.toNat
    let (first, index) ← Lib.loop .outOfClock (walkTurn s.bytes start) (s.bytes.length + 1) (0, 0)
    if index < start then pure emptyString
    else do
      let (_, index) ← Lib.loop .outOfClock (walkTurn s.bytes count) (s.bytes.length + 1) (0, 0)
      let last ← Lib.loop .outOfClock (walkBackTurn s.bytes) (s.bytes.length + 1) (first, index)
      copyOut s first last

/-! ## The rule for units -/

def isTwo : Bytes → Bool
  | a :: b :: _ => 0xC2 ≤ a ∧ a ≤ 0xDF ∧ isTail b
  | _ => false

def isThree : Bytes → Bool
  | a :: b :: c :: _ => 0xE0 ≤ a ∧ a ≤ 0xEF ∧ isTail b ∧ isTail c ∧ ¬(a = 0xE0 ∧ b < 0xA0) ∧ ¬(a = 0xED ∧ b ≥ 0xA0)
  | _ => false

def isFour : Bytes → Bool
  | a :: b :: c :: d :: _ => 0xF0 ≤ a ∧ a ≤ 0xF4 ∧ isTail b ∧ isTail c ∧ isTail d ∧ ¬(a = 0xF0 ∧ b < 0x90) ∧
      ¬(a = 0xF4 ∧ b ≥ 0x90)
  | _ => false

def unitSize (l : Bytes) : Nat :=
  if l = [] then 0 else if isTwo l then 2 else if isThree l then 3 else if isFour l then 4 else 1

variable {l s : Bytes} {a b c d : UInt8} {i m : Nat}

theorem isTwo_take (l : Bytes) (m : Nat) : isTwo (l.take m) = (decide (2 ≤ m) && isTwo l) := by
  rcases m with _ | _ | m <;> rcases l with _ | ⟨a, _ | ⟨b, l⟩⟩ <;> simp [isTwo]

theorem isThree_take (l : Bytes) (m : Nat) : isThree (l.take m) = (decide (3 ≤ m) && isThree l) := by
  rcases m with _ | _ | _ | m <;> rcases l with _ | ⟨a, _ | ⟨b, _ | ⟨c, l⟩⟩⟩ <;> simp [isThree]

theorem isFour_take (l : Bytes) (m : Nat) : isFour (l.take m) = (decide (4 ≤ m) && isFour l) := by
  rcases m with _ | _ | _ | _ | m <;> rcases l with _ | ⟨a, _ | ⟨b, _ | ⟨c, _ | ⟨d, l⟩⟩⟩⟩ <;> simp [isFour]

theorem isTwo_length (h : isTwo l = true) : 2 ≤ l.length := by
  rcases l with _ | ⟨a, _ | ⟨b, l⟩⟩
  · exact absurd h Bool.false_ne_true
  · exact absurd h Bool.false_ne_true
  · simp

theorem isThree_length (h : isThree l = true) : 3 ≤ l.length := by
  rcases l with _ | ⟨a, _ | ⟨b, _ | ⟨c, l⟩⟩⟩
  · exact absurd h Bool.false_ne_true
  · exact absurd h Bool.false_ne_true
  · exact absurd h Bool.false_ne_true
  · simp

theorem isFour_length (h : isFour l = true) : 4 ≤ l.length := by
  rcases l with _ | ⟨a, _ | ⟨b, _ | ⟨c, _ | ⟨d, l⟩⟩⟩⟩
  · exact absurd h Bool.false_ne_true
  · exact absurd h Bool.false_ne_true
  · exact absurd h Bool.false_ne_true
  · exact absurd h Bool.false_ne_true
  · simp

/-- The cases of the rule, with what the tests before said. -/
theorem unitSize_cases (h : l ≠ []) :
    (isTwo l = true ∧ unitSize l = 2) ∨ (isTwo l = false ∧ isThree l = true ∧ unitSize l = 3) ∨
    (isTwo l = false ∧ isThree l = false ∧ isFour l = true ∧ unitSize l = 4) ∨
    (isTwo l = false ∧ isThree l = false ∧ isFour l = false ∧ unitSize l = 1) := by
  unfold unitSize
  rw [if_neg h]
  cases hone : isTwo l with
  | true => exact Or.inl ⟨rfl, rfl⟩
  | false =>
      cases hthree : isThree l with
      | true => exact Or.inr (Or.inl ⟨rfl, rfl, rfl⟩)
      | false =>
          cases hfour : isFour l with
          | true => exact Or.inr (Or.inr (Or.inl ⟨rfl, rfl, rfl, rfl⟩))
          | false => exact Or.inr (Or.inr (Or.inr ⟨rfl, rfl, rfl, rfl⟩))

theorem unitSize_pos (h : l ≠ []) : 0 < unitSize l := by
  rcases unitSize_cases h with ⟨-, hs⟩ | ⟨-, -, hs⟩ | ⟨-, -, -, hs⟩ | ⟨-, -, -, hs⟩ <;> omega

theorem unitSize_le (l : Bytes) : unitSize l ≤ l.length := by
  by_cases h : l = []
  · rw [h]
    exact Nat.le_refl 0
  · rcases unitSize_cases h with ⟨h2, hs⟩ | ⟨-, h3, hs⟩ | ⟨-, -, h4, hs⟩ | ⟨-, -, -, hs⟩
    · rw [hs]
      exact isTwo_length h2
    · rw [hs]
      exact isThree_length h3
    · rw [hs]
      exact isFour_length h4
    · rw [hs]
      exact List.length_pos_iff.mpr h

/-- A cut behind the first unit does not change it: the tests that failed fail on less, the one that held still has what it
looked at. -/
theorem unitSize_take (h : l ≠ []) (hm : unitSize l ≤ m) : unitSize (l.take m) = unitSize l := by
  have hpos := unitSize_pos h
  have hne : l.take m ≠ [] := by
    intro hnil
    rcases List.take_eq_nil_iff.mp hnil with hzero | hl
    · omega
    · exact h hl
  rcases unitSize_cases h with ⟨h2, hs⟩ | ⟨h2, h3, hs⟩ | ⟨h2, h3, h4, hs⟩ | ⟨h2, h3, h4, hs⟩
  · have hroom : decide (2 ≤ m) = true := decide_eq_true (by omega)
    rw [unitSize, if_neg hne, isTwo_take, hroom, h2, hs]
    rfl
  · have hroom : decide (3 ≤ m) = true := decide_eq_true (by omega)
    rw [unitSize, if_neg hne, isTwo_take, isThree_take, hroom, h2, h3, hs, Bool.and_false]
    rfl
  · have hroom : decide (4 ≤ m) = true := decide_eq_true (by omega)
    rw [unitSize, if_neg hne, isTwo_take, isThree_take, isFour_take, hroom, h2, h3, h4, hs, Bool.and_false, Bool.and_false]
    rfl
  · rw [unitSize, if_neg hne, isTwo_take, isThree_take, isFour_take, h2, h3, h4, hs, Bool.and_false, Bool.and_false,
      Bool.and_false]
    rfl

/-- What a byte string is cut into. -/
def utf8Rule : UnitRule UInt8 where
  size := unitSize
  pos := unitSize_pos
  le := unitSize_le
  stable := unitSize_take

def utf8Units (s : Bytes) : List Bytes := utf8Rule.units s

/-!
## Slices are made of units

The walks of `vnt_utf8_len` and `vnt_utf8_slice` go from unit to unit; the laws of slicing are then laws of the units. The
units of a well-formed text are the encodings of its characters.
-/

variable {s l t : Bytes} {a b c d : UInt8} {i k p index limit count : Nat}

/-! ## One unit -/

theorem charAt_drop (h : s.drop i = l) (hk : l[k]? = some c) : charAt s (i + k) = .ok c := by
  rw [← h, List.getElem?_drop] at hk
  rw [charAt, hk]

theorem charAt_end (h : s.drop i = l) (hi : i ≤ s.length) (hk : l.length = k) : charAt s (i + k) = .ok 0 := by
  have hlen := congrArg List.length h
  rw [List.length_drop] at hlen
  rw [charAt, List.getElem?_eq_none (by omega)]
  exact if_pos (by omega)

theorem startsTwo_ok (h : s.drop i = a :: t) (hi : i ≤ s.length) (hnul : 0 ∉ a :: t) :
    startsTwo s i a = .ok (isTwo (a :: t)) := by
  unfold startsTwo
  by_cases hlead : 0xC2 ≤ a ∧ a ≤ 0xDF
  · rw [if_pos hlead]
    cases t with
    | nil =>
        rw [charAt_end (k := 1) h hi rfl]
        rfl
    | cons b t =>
        have hb : b ≠ 0 := fun hb => hnul (by simp [hb])
        rw [charAt_drop h rfl]
        simp [isTwo, hlead, hb, bind, Except.bind, pure, Except.pure]
  · rw [if_neg hlead]
    cases t with
    | nil => rfl
    | cons b t => exact congrArg Except.ok (decide_eq_false fun hall => hlead ⟨hall.1, hall.2.1⟩).symm

theorem startsThree_ok (h : s.drop i = a :: t) (hi : i ≤ s.length) (hnul : 0 ∉ a :: t) :
    startsThree s i a = .ok (isThree (a :: t)) := by
  unfold startsThree
  by_cases hlead : 0xE0 ≤ a ∧ a ≤ 0xEF
  · rw [if_pos hlead]
    rcases t with _ | ⟨b, t⟩
    · rw [charAt_end (k := 1) h hi rfl]
      rfl
    · have hb : b ≠ 0 := fun hb => hnul (by simp [hb])
      rw [charAt_drop h rfl]
      show (if b ≠ 0 then _ else _) = _
      rw [if_pos hb]
      rcases t with _ | ⟨c, t⟩
      · rw [charAt_end (k := 2) h hi rfl]
        rfl
      · have hc : c ≠ 0 := fun hc => hnul (by simp [hc])
        rw [charAt_drop h rfl]
        simp [isThree, hlead, hc, bind, Except.bind, pure, Except.pure]
  · rw [if_neg hlead]
    rcases t with _ | ⟨b, _ | ⟨c, t⟩⟩
    · rfl
    · rfl
    · exact congrArg Except.ok (decide_eq_false fun hall => hlead ⟨hall.1, hall.2.1⟩).symm

theorem startsFour_ok (h : s.drop i = a :: t) (hi : i ≤ s.length) (hnul : 0 ∉ a :: t) :
    startsFour s i a = .ok (isFour (a :: t)) := by
  unfold startsFour
  by_cases hlead : 0xF0 ≤ a ∧ a ≤ 0xF4
  · rw [if_pos hlead]
    rcases t with _ | ⟨b, t⟩
    · rw [charAt_end (k := 1) h hi rfl]
      rfl
    · have hb : b ≠ 0 := fun hb => hnul (by simp [hb])
      rw [charAt_drop h rfl]
      show (if b ≠ 0 then _ else _) = _
      rw [if_pos hb]
      rcases t with _ | ⟨c, t⟩
      · rw [charAt_end (k := 2) h hi rfl]
        rfl
      · have hc : c ≠ 0 := fun hc => hnul (by simp [hc])
        rw [charAt_drop h rfl]
        show (if c ≠ 0 then _ else _) = _
        rw [if_pos hc]
        rcases t with _ | ⟨d, t⟩
        · rw [charAt_end (k := 3) h hi rfl]
          rfl
        · have hd : d ≠ 0 := fun hd => hnul (by simp [hd])
          rw [charAt_drop h rfl]
          simp [isFour, hlead, hd, bind, Except.bind, pure, Except.pure]
  · rw [if_neg hlead]
    rcases t with _ | ⟨b, _ | ⟨c, _ | ⟨d, t⟩⟩⟩
    · rfl
    · rfl
    · rfl
    · exact congrArg Except.ok (decide_eq_false fun hall => hlead ⟨hall.1, hall.2.1⟩).symm

/-- A byte below 0x80 starts nothing longer. -/
theorem unitSize_ascii (h : a < 0x80) : unitSize (a :: t) = 1 := by
  have hC2 : ¬(0xC2 : UInt8) ≤ a := by
    rw [UInt8.not_le]
    exact UInt8.lt_trans h (by decide)
  have hE0 : ¬(0xE0 : UInt8) ≤ a := by
    rw [UInt8.not_le]
    exact UInt8.lt_trans h (by decide)
  have hF0 : ¬(0xF0 : UInt8) ≤ a := by
    rw [UInt8.not_le]
    exact UInt8.lt_trans h (by decide)
  rcases t with _ | ⟨b, _ | ⟨c, _ | ⟨d, t⟩⟩⟩ <;> simp [unitSize, isTwo, isThree, isFour, hC2, hE0, hF0]

/-- `vnt_utf8_unit` reads no further than the terminator. -/
theorem utf8Unit_ok (hnul : 0 ∉ s) (hi : i < s.length) : utf8Unit s i = .ok (unitSize (s.drop i)) := by
  obtain ⟨a, t, hdrop⟩ : ∃ a t, s.drop i = a :: t := ⟨_, _, List.drop_eq_getElem_cons hi⟩
  have hrest : 0 ∉ a :: t := fun hmem => hnul (List.mem_of_mem_drop (hdrop ▸ hmem))
  have hle := Nat.le_of_lt hi
  have hfirst : charAt s i = .ok a := charAt_drop (k := 0) hdrop rfl
  rw [utf8Unit, hfirst, hdrop]
  show (if a < 0x80 then _ else _) = _
  by_cases hascii : a < 0x80
  · rw [if_pos hascii, unitSize_ascii hascii]
    rfl
  · rw [if_neg hascii, startsTwo_ok hdrop hle hrest]
    show (if isTwo (a :: t) = true then _ else _) = _
    rw [unitSize, if_neg (List.cons_ne_nil a t)]
    cases isTwo (a :: t) with
    | true => rfl
    | false =>
        show (startsThree s i a >>= _) = _
        rw [startsThree_ok hdrop hle hrest]
        cases isThree (a :: t) with
        | true => rfl
        | false =>
            show (startsFour s i a >>= _) = _
            rw [startsFour_ok hdrop hle hrest]
            cases isFour (a :: t) with
            | true => rfl
            | false => rfl

/-! ## The walks -/

/-- Either the walk has come to the end, or there is a unit. -/
theorem charAt_cases (hnul : 0 ∉ s) (hp : p ≤ s.length) :
    (charAt s p = .ok 0 ∧ s.drop p = []) ∨ (∃ c, c ≠ 0 ∧ charAt s p = .ok c ∧ p < s.length ∧ s.drop p ≠ []) := by
  rcases Nat.lt_or_eq_of_le hp with hlt | heq
  · have hmem : s[p] ∈ s := List.getElem_mem hlt
    refine Or.inr ⟨s[p], fun hzero => hnul (hzero ▸ hmem), ?_, hlt, ?_⟩
    · rw [charAt, List.getElem?_eq_getElem hlt]
    · rw [List.drop_eq_getElem_cons hlt]
      exact List.cons_ne_nil _ _
  · refine Or.inl ⟨?_, List.drop_of_length_le (Nat.le_of_eq heq.symm)⟩
    rw [charAt, List.getElem?_eq_none (Nat.le_of_eq heq.symm)]
    exact if_pos heq

/-- The next place is in the string, and further on. -/
theorem next_place (hlt : p < s.length) : p < p + unitSize (s.drop p) ∧ p + unitSize (s.drop p) ≤ s.length := by
  have hne : s.drop p ≠ [] := by
    rw [List.drop_eq_getElem_cons hlt]
    exact List.cons_ne_nil _ _
  have hpos := unitSize_pos hne
  have hle := unitSize_le (s.drop p)
  rw [List.length_drop] at hle
  omega

/-- The units that are left, seen from the next place. -/
theorem units_next (hne : s.drop p ≠ []) : utf8Units (s.drop p) =
    (s.drop p).take (unitSize (s.drop p)) :: utf8Units (s.drop (p + unitSize (s.drop p))) := by
  rw [← List.drop_drop]
  exact utf8Rule.units_of_ne hne

theorem utf8Len_ok (s : CString) : utf8Len s = .ok (utf8Units s.bytes).length := by
  obtain ⟨s, hnul, hfits⟩ := s
  have hbound := utf8Rule.units_length_le s
  unfold userSpace at hfits
  have hrun := @Lib.loop_eq _ _ _ Utf8Error.outOfClock (lenTurn s) (s.length + 1) (0, 0)
    (fun st => st.1 ≤ s.length ∧ st.2 + (utf8Units (s.drop st.1)).length ≤ s.length)
    (fun st => st.2 + (utf8Units (s.drop st.1)).length) (fun st => s.length - st.1) ?_
    ⟨Nat.zero_le _, by rw [Nat.zero_add]; exact hbound⟩ (Nat.lt_succ_self _)
  · rw [Nat.zero_add] at hrun
    exact hrun
  · rintro ⟨p, count⟩ ⟨hp, hcount⟩
    simp only at hp hcount
    rw [lenTurn]
    rcases charAt_cases hnul hp with ⟨hchar, hend⟩ | ⟨c, hc, hchar, hlt, hne⟩
    · rw [hchar]
      refine ⟨.done count, rfl, ?_⟩
      show count = count + (utf8Units (s.drop p)).length
      have hnone : utf8Units ([] : Bytes) = [] := utf8Rule.units_nil
      rw [hend, hnone, List.length_nil, Nat.add_zero]
    · obtain ⟨hfurther, hin⟩ := next_place hlt
      have hunits := congrArg List.length (units_next hne)
      rw [List.length_cons] at hunits
      rw [hchar]
      show ∃ turn, (if c ≠ 0 then _ else _) = _ ∧ _
      rw [if_pos hc, utf8Unit_ok hnul hlt]
      show ∃ turn, (if count = 2 ^ 63 - 1 then _ else _) = _ ∧ _
      rw [if_neg (by omega)]
      refine ⟨.next (p + unitSize (s.drop p), count + 1), rfl, ⟨⟨hin, ?_⟩, ?_⟩, ?_⟩
      · show count + 1 + (utf8Units (s.drop (p + unitSize (s.drop p)))).length ≤ s.length
        omega
      · show count + 1 + (utf8Units (s.drop (p + unitSize (s.drop p)))).length = count + (utf8Units (s.drop p)).length
        omega
      · show s.length - (p + unitSize (s.drop p)) < s.length - p
        omega

/-- Where `k` units from `p` on end. -/
theorem span_next (hne : s.drop p ≠ []) (k : Nat) : p + utf8Rule.span (k + 1) (s.drop p) =
    p + unitSize (s.drop p) + utf8Rule.span k (s.drop (p + unitSize (s.drop p))) := by
  rw [utf8Rule.span_succ hne, List.drop_drop, Nat.add_assoc]
  rfl

theorem walk_ok (hnul : 0 ∉ s) (limit : Nat) :
    Lib.loop Utf8Error.outOfClock (walkTurn s limit) (s.length + 1) (0, 0) =
      .ok (utf8Rule.span limit s, min limit (utf8Units s).length) := by
  have hrun := @Lib.loop_eq _ _ _ Utf8Error.outOfClock (walkTurn s limit) (s.length + 1) (0, 0)
    (fun st => st.1 ≤ s.length ∧ st.2 ≤ limit)
    (fun st => (st.1 + utf8Rule.span (limit - st.2) (s.drop st.1), st.2 + min (limit - st.2) (utf8Units (s.drop st.1)).length))
    (fun st => s.length - st.1) ?_ ⟨Nat.zero_le _, Nat.zero_le _⟩ (Nat.lt_succ_self _)
  · simp only [List.drop_zero, Nat.zero_add, Nat.sub_zero] at hrun
    exact hrun
  · rintro ⟨p, index⟩ ⟨hp, hindex⟩
    simp only at hp hindex
    rw [walkTurn]
    rcases charAt_cases hnul hp with ⟨hchar, hend⟩ | ⟨c, hc, hchar, hlt, hne⟩
    · rw [hchar]
      refine ⟨.done (p, index), rfl, ?_⟩
      show (p, index) = _
      have hnone : utf8Units ([] : Bytes) = [] := utf8Rule.units_nil
      rw [hend, hnone, utf8Rule.span_nil, List.length_nil, Nat.min_zero]
      rfl
    · rw [hchar]
      show ∃ turn, (if c ≠ 0 ∧ index < limit then _ else _) = _ ∧ _
      by_cases hmore : index < limit
      · obtain ⟨hfurther, hin⟩ := next_place hlt
        have hunits := congrArg List.length (units_next hne)
        rw [List.length_cons] at hunits
        rw [if_pos ⟨hc, hmore⟩, utf8Unit_ok hnul hlt]
        refine ⟨.next (p + unitSize (s.drop p), index + 1), rfl, ⟨⟨hin, hmore⟩, ?_⟩, ?_⟩
        · have hleft : limit - index = limit - (index + 1) + 1 := by omega
          apply Prod.ext
          · show _ = p + utf8Rule.span (limit - index) (s.drop p)
            rw [hleft, span_next hne]
          · show index + 1 + min (limit - (index + 1)) (utf8Units (s.drop (p + unitSize (s.drop p)))).length =
              index + min (limit - index) (utf8Units (s.drop p)).length
            omega
        · show s.length - (p + unitSize (s.drop p)) < s.length - p
          omega
      · rw [if_neg (fun h => hmore h.2)]
        refine ⟨.done (p, index), rfl, ?_⟩
        have hleft : limit - index = 0 := by omega
        show (p, index) = _
        rw [hleft, utf8Rule.span_zero, Nat.zero_min]
        rfl

theorem walkBack_ok (hnul : 0 ∉ s) (hp : p ≤ s.length) (k : Nat) :
    Lib.loop Utf8Error.outOfClock (walkBackTurn s) (s.length + 1) (p, k) = .ok (p + utf8Rule.span k (s.drop p)) := by
  refine @Lib.loop_eq _ _ _ Utf8Error.outOfClock (walkBackTurn s) (s.length + 1) (p, k) (fun st => st.1 ≤ s.length)
    (fun st => st.1 + utf8Rule.span st.2 (s.drop st.1)) (fun st => s.length - st.1) ?_ hp
    (Nat.lt_succ_of_le (Nat.sub_le _ _))
  rintro ⟨p, k⟩ hp
  simp only at hp
  rw [walkBackTurn]
  rcases charAt_cases hnul hp with ⟨hchar, hend⟩ | ⟨c, hc, hchar, hlt, hne⟩
  · rw [hchar]
    refine ⟨.done p, rfl, ?_⟩
    show p = p + utf8Rule.span k (s.drop p)
    rw [hend, utf8Rule.span_nil, Nat.add_zero]
  · rw [hchar]
    show ∃ turn, (if c ≠ 0 ∧ k > 0 then _ else _) = _ ∧ _
    cases k with
    | zero =>
        rw [if_neg (fun h => absurd h.2 (Nat.lt_irrefl 0))]
        exact ⟨.done p, rfl, rfl⟩
    | succ k =>
        obtain ⟨hfurther, hin⟩ := next_place hlt
        rw [if_pos ⟨hc, Nat.succ_pos k⟩, utf8Unit_ok hnul hlt]
        refine ⟨.next (p + unitSize (s.drop p), k), rfl, ⟨hin, (span_next hne k).symm⟩, ?_⟩
        show s.length - (p + unitSize (s.drop p)) < s.length - p
        omega

/-! ## Slices -/

theorem utf8Slice_ok (s : CString) (start count : Nat) : ∃ piece, utf8Slice s start count = .ok piece ∧
    piece.bytes = (((utf8Units s.bytes).drop start).take count).flatten := by
  obtain ⟨s, hnul, hfits⟩ := s
  have hsigns : ¬((start : Int) < 0 ∨ (count : Int) < 0) := by omega
  rw [utf8Slice, if_neg hsigns, Int.toNat_natCast, Int.toNat_natCast]
  show ∃ piece, (Lib.loop _ (walkTurn s start) (s.length + 1) (0, 0) >>= _) = _ ∧ _
  rw [walk_ok hnul start]
  show ∃ piece, (if min start (utf8Units s).length < start then _ else _) = _ ∧ _
  by_cases hshort : min start (utf8Units s).length < start
  · have hgone : (utf8Units s).drop start = [] := List.drop_of_length_le (by omega)
    rw [if_pos hshort]
    refine ⟨emptyString, rfl, ?_⟩
    show [] = _
    rw [hgone, List.take_nil, List.flatten_nil]
  · rw [if_neg hshort, walk_ok hnul count]
    show ∃ piece, (Lib.loop _ (walkBackTurn s) (s.length + 1) (utf8Rule.span start s, min count (utf8Units s).length) >>= _) =
      _ ∧ _
    have hfirst := utf8Rule.span_le start s
    rw [walkBack_ok hnul hfirst]
    have hlast := utf8Rule.span_le (min count (utf8Units s).length) (s.drop (utf8Rule.span start s))
    rw [List.length_drop] at hlast
    have hin : utf8Rule.span start s + utf8Rule.span (min count (utf8Units s).length) (s.drop (utf8Rule.span start s)) ≤
        s.length := by omega
    refine ⟨_, dif_pos ⟨Nat.le_add_right _ _, hin⟩, ?_⟩
    show (s.drop (utf8Rule.span start s)).take (utf8Rule.span start s + _ - utf8Rule.span start s) = _
    have hunits := utf8Rule.units_drop_span start s
    have hall : (utf8Rule.units (s.drop (utf8Rule.span start s))).take (min count (utf8Units s).length) =
        ((utf8Units s).drop start).take count := by
      rw [hunits]
      show ((utf8Units s).drop start).take (min count (utf8Units s).length) = _
      have hlen : ((utf8Units s).drop start).length ≤ (utf8Units s).length := by
        rw [List.length_drop]
        exact Nat.sub_le _ _
      rcases Nat.le_total count (utf8Units s).length with hle | hle
      · rw [Nat.min_eq_left hle]
      · rw [Nat.min_eq_right hle, List.take_of_length_le hlen, List.take_of_length_le (Nat.le_trans hlen hle)]
    rw [Nat.add_sub_cancel_left, utf8Rule.take_span, hall]

/-- The units of a slice are units of the string. -/
theorem units_slice (s : Bytes) (start count : Nat) :
    utf8Units (((utf8Units s).drop start).take count).flatten = ((utf8Units s).drop start).take count := by
  have hdrop := utf8Rule.units_drop_span start s
  have htake := utf8Rule.units_take_span count (s.drop (utf8Rule.span start s))
  rw [utf8Rule.take_span, hdrop] at htake
  exact htake

/-!
## Units and characters

The tests of `vnt_utf8_unit`, as bounds on numbers, are those that the encoding of a character meets, with overlong forms,
surrogates and numbers above U+10FFFF left out.
-/

variable {l : Bytes} {a b c d : UInt8} {n m : Nat}

theorem isTail_iff : isTail b = true ↔ 128 ≤ b.toNat ∧ b.toNat < 192 := by
  have hall : ∀ k : Fin 256, isTail (UInt8.ofNat k) = decide (128 ≤ k.val ∧ k.val < 192) := by
    decide +kernel
  have hb := hall ⟨b.toNat, b.toNat_lt⟩
  rw [UInt8.ofNat_toNat] at hb
  rw [hb, decide_eq_true_eq]

theorem isTwo_iff : isTwo (a :: b :: l) = true ↔ 194 ≤ a.toNat ∧ a.toNat ≤ 223 ∧ isTail b = true := by
  rw [isTwo, decide_eq_true_eq, UInt8.le_iff_toNat_le, UInt8.le_iff_toNat_le]
  rfl

theorem isThree_iff : isThree (a :: b :: c :: l) = true ↔ 224 ≤ a.toNat ∧ a.toNat ≤ 239 ∧ isTail b = true ∧
    isTail c = true ∧ ¬(a.toNat = 224 ∧ b.toNat < 160) ∧ ¬(a.toNat = 237 ∧ 160 ≤ b.toNat) := by
  rw [isThree, decide_eq_true_eq, UInt8.le_iff_toNat_le, UInt8.le_iff_toNat_le, ← UInt8.toNat_inj, ← UInt8.toNat_inj,
    UInt8.lt_iff_toNat_lt, ge_iff_le, UInt8.le_iff_toNat_le]
  rfl

theorem isFour_iff : isFour (a :: b :: c :: d :: l) = true ↔ 240 ≤ a.toNat ∧ a.toNat ≤ 244 ∧ isTail b = true ∧
    isTail c = true ∧ isTail d = true ∧ ¬(a.toNat = 240 ∧ b.toNat < 144) ∧ ¬(a.toNat = 244 ∧ 144 ≤ b.toNat) := by
  rw [isFour, decide_eq_true_eq, UInt8.le_iff_toNat_le, UInt8.le_iff_toNat_le, ← UInt8.toNat_inj, ← UInt8.toNat_inj,
    UInt8.lt_iff_toNat_lt, ge_iff_le, UInt8.le_iff_toNat_le]
  rfl

theorem isTwo_false (h : 224 ≤ a.toNat) (l : Bytes) : isTwo (a :: l) = false := by
  cases l with
  | nil => rfl
  | cons b l =>
      rw [Bool.eq_false_iff, Ne, isTwo_iff]
      omega

theorem isThree_false (h : 240 ≤ a.toNat) (l : Bytes) : isThree (a :: l) = false := by
  rcases l with _ | ⟨b, _ | ⟨c, l⟩⟩
  · rfl
  · rfl
  · rw [Bool.eq_false_iff, Ne, isThree_iff]
    omega

theorem toNat_byte (h : n < 256) : (UInt8.ofNat n).toNat = n := UInt8.toNat_ofNat_of_lt' h

/-! ## The encoding of a character -/

/-- The number of a character is no surrogate and not above U+10FFFF. -/
theorem char_bounds (ch : Char) : ch.val.toNat < 0xD800 ∨ (0xDFFF < ch.val.toNat ∧ ch.val.toNat < 0x110000) := ch.valid

theorem unitSize_encode (ch : Char) (rest : Bytes) :
    unitSize (String.utf8EncodeChar ch ++ rest) = (String.utf8EncodeChar ch).length := by
  have hvalid := char_bounds ch
  unfold String.utf8EncodeChar
  generalize ch.val.toNat = v at hvalid
  dsimp only
  by_cases h1 : v ≤ 0x7F
  · rw [if_pos h1]
    apply unitSize_ascii
    rw [UInt8.lt_iff_toNat_lt, toNat_byte (by omega)]
    exact Nat.lt_succ_of_le h1
  rw [if_neg h1]
  by_cases h2 : v ≤ 0x7FF
  · have ha := @toNat_byte (v / 64 % 0x20 + 0xC0) (by omega)
    have hb := @toNat_byte (v % 0x40 + 0x80) (by omega)
    have htwo : isTwo (UInt8.ofNat (v / 64 % 0x20 + 0xC0) :: UInt8.ofNat (v % 0x40 + 0x80) :: rest) = true := by
      rw [isTwo_iff, isTail_iff, ha, hb]
      omega
    rw [if_pos h2]
    show unitSize (_ :: _ :: rest) = 2
    rw [unitSize, if_neg (List.cons_ne_nil _ _), htwo]
    rfl
  rw [if_neg h2]
  by_cases h3 : v ≤ 0xFFFF
  · have ha := @toNat_byte (v / 4096 % 0x10 + 0xE0) (by omega)
    have hb := @toNat_byte (v / 64 % 0x40 + 0x80) (by omega)
    have hc := @toNat_byte (v % 0x40 + 0x80) (by omega)
    have hthree : isThree (UInt8.ofNat (v / 4096 % 0x10 + 0xE0) :: UInt8.ofNat (v / 64 % 0x40 + 0x80) ::
        UInt8.ofNat (v % 0x40 + 0x80) :: rest) = true := by
      rw [isThree_iff, isTail_iff, isTail_iff, ha, hb, hc]
      omega
    rw [if_pos h3]
    show unitSize (_ :: _ :: _ :: rest) = 3
    rw [unitSize, if_neg (List.cons_ne_nil _ _), isTwo_false (by rw [ha]; omega), hthree]
    rfl
  · have ha := @toNat_byte (v / 262144 % 0x08 + 0xF0) (by omega)
    have hb := @toNat_byte (v / 4096 % 0x40 + 0x80) (by omega)
    have hc := @toNat_byte (v / 64 % 0x40 + 0x80) (by omega)
    have hd := @toNat_byte (v % 0x40 + 0x80) (by omega)
    have hfour : isFour (UInt8.ofNat (v / 262144 % 0x08 + 0xF0) :: UInt8.ofNat (v / 4096 % 0x40 + 0x80) ::
        UInt8.ofNat (v / 64 % 0x40 + 0x80) :: UInt8.ofNat (v % 0x40 + 0x80) :: rest) = true := by
      rw [isFour_iff, isTail_iff, isTail_iff, isTail_iff, ha, hb, hc, hd]
      omega
    rw [if_neg h3]
    show unitSize (_ :: _ :: _ :: _ :: rest) = 4
    rw [unitSize, if_neg (List.cons_ne_nil _ _), isTwo_false (by rw [ha]; omega), isThree_false (by rw [ha]; omega), hfour]
    rfl

theorem encode_ne_nil (ch : Char) : String.utf8EncodeChar ch ≠ [] := by
  intro hnil
  have hlen := String.length_utf8EncodeChar ch
  rw [hnil] at hlen
  exact absurd hlen.symm (Nat.ne_of_gt ch.utf8Size_pos)

/-- The units of well-formed UTF-8 are its characters. -/
theorem utf8Units_encode (chars : List Char) :
    utf8Units (chars.flatMap String.utf8EncodeChar) = chars.map String.utf8EncodeChar := by
  rw [List.flatMap_def]
  apply utf8Rule.units_flatten_of
  intro p hp
  obtain ⟨ch, -, rfl⟩ := List.mem_map.mp hp
  exact ⟨encode_ne_nil ch, unitSize_encode ch⟩

/-- The laws of slicing. -/
theorem utf8_slicing (s : CString) (start count : Nat) : ∃ len piece,
    utf8Len s = .ok len ∧ utf8Slice s start count = .ok piece ∧
    len = (utf8Units s.bytes).length ∧ piece.bytes = (((utf8Units s.bytes).drop start).take count).flatten ∧
    utf8Len piece = .ok (min count (len - start)) ∧
    (∀ k : Nat, ∃ front back, utf8Slice s (0 : Nat) k = .ok front ∧ utf8Slice s k len = .ok back ∧
      front.bytes ++ back.bytes = s.bytes) ∧
    (∀ chars : List Char, s.bytes = chars.flatMap String.utf8EncodeChar →
      utf8Units s.bytes = chars.map String.utf8EncodeChar) := by
  obtain ⟨piece, hslice, hpiece⟩ := utf8Slice_ok s start count
  refine ⟨_, piece, utf8Len_ok s, hslice, rfl, hpiece, ?_, ?_, ?_⟩
  · rw [utf8Len_ok, hpiece, units_slice, List.length_take, List.length_drop]
  · intro k
    obtain ⟨front, hfront, hfrontBytes⟩ := utf8Slice_ok s 0 k
    obtain ⟨back, hback, hbackBytes⟩ := utf8Slice_ok s k (utf8Units s.bytes).length
    refine ⟨front, back, hfront, hback, ?_⟩
    have hrest : ((utf8Units s.bytes).drop k).length ≤ (utf8Units s.bytes).length := by
      rw [List.length_drop]
      exact Nat.sub_le _ _
    rw [hfrontBytes, hbackBytes, List.drop_zero, List.take_of_length_le hrest, ← List.flatten_append, List.take_append_drop]
    exact utf8Rule.units_flatten s.bytes
  · intro chars hchars
    rw [hchars]
    exact utf8Units_encode chars

end Vnt.Runtime
