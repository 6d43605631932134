import Mathlib.Data.List.Basic

/-!
# `Lib.Json` — JSON texts as concrete syntax trees

A tree keeps everything the grammar leaves to the writer: the blanks on both sides of every structural character, the
spelling of every character of a string, the spelling of a number. `text` writes it down, `members` lists the members of
the objects at any depth in the order in which their names stand in the text.

A string may hold any byte that needs no escape; NUL and lone surrogates cannot be written.
-/

namespace Vnt.Lib.Json

def quotationMark : UInt8 := 0x22
def reverseSolidus : UInt8 := 0x5C
def nameSeparator : UInt8 := 0x3A
def valueSeparator : UInt8 := 0x2C
def beginArray : UInt8 := 0x5B
def endArray : UInt8 := 0x5D
def beginObject : UInt8 := 0x7B
def endObject : UInt8 := 0x7D

/-- Insignificant whitespace. -/
def IsBlank (c : UInt8) : Prop := c = 0x20 ∨ c = 0x09 ∨ c = 0x0A ∨ c = 0x0D

instance : DecidablePred IsBlank := fun c => inferInstanceAs (Decidable (c = 0x20 ∨ c = 0x09 ∨ c = 0x0A ∨ c = 0x0D))

structure Blanks where
  bytes : List UInt8
  blank : ∀ c ∈ bytes, IsBlank c

/-! ## Strings -/

/-- A hexadecimal digit, with the case of a letter. -/
structure HexDigit where
  value : Fin 16
  upper : Bool

def HexDigit.byte (d : HexDigit) : UInt8 :=
  UInt8.ofNat (if d.value.val < 10 then 0x30 + d.value.val else (if d.upper then 0x37 else 0x57) + d.value.val)

/-- Four hexadecimal digits. -/
structure CodeUnit where
  first : HexDigit
  second : HexDigit
  third : HexDigit
  fourth : HexDigit

namespace CodeUnit

def text (u : CodeUnit) : List UInt8 := [u.first.byte, u.second.byte, u.third.byte, u.fourth.byte]

def number (u : CodeUnit) : Nat :=
  ((u.first.value.val * 16 + u.second.value.val) * 16 + u.third.value.val) * 16 + u.fourth.value.val

def IsHigh (u : CodeUnit) : Prop := 0xD800 ≤ u.number ∧ u.number ≤ 0xDBFF

def IsLow (u : CodeUnit) : Prop := 0xDC00 ≤ u.number ∧ u.number ≤ 0xDFFF

instance (u : CodeUnit) : Decidable u.IsHigh := inferInstanceAs (Decidable (0xD800 ≤ u.number ∧ u.number ≤ 0xDBFF))

instance (u : CodeUnit) : Decidable u.IsLow := inferInstanceAs (Decidable (0xDC00 ≤ u.number ∧ u.number ≤ 0xDFFF))

end CodeUnit

/-- The escapes of one letter. -/
inductive Escape where
  | quotationMark
  | reverseSolidus
  | solidus
  | backspace
  | formFeed
  | lineFeed
  | carriageReturn
  | tab
  deriving DecidableEq, Repr

namespace Escape

def letter : Escape → UInt8
  | quotationMark => 0x22
  | reverseSolidus => 0x5C
  | solidus => 0x2F
  | backspace => 0x62
  | formFeed => 0x66
  | lineFeed => 0x6E
  | carriageReturn => 0x72
  | tab => 0x74

def decoded : Escape → UInt8
  | quotationMark => 0x22
  | reverseSolidus => 0x5C
  | solidus => 0x2F
  | backspace => 0x08
  | formFeed => 0x0C
  | lineFeed => 0x0A
  | carriageReturn => 0x0D
  | tab => 0x09

end Escape

def IsUnescaped (c : UInt8) : Prop := 0x20 ≤ c ∧ c ≠ quotationMark ∧ c ≠ reverseSolidus

/-- What a string is made of. -/
inductive Piece where
  | unescaped (c : UInt8) (h : IsUnescaped c)
  | escaped (e : Escape)
  | unit (u : CodeUnit) (hnul : u.number ≠ 0) (hhigh : ¬u.IsHigh) (hlow : ¬u.IsLow)
  | pair (high low : CodeUnit) (hhigh : high.IsHigh) (hlow : low.IsLow)

/-- The escape of a code unit. -/
def escapedUnit (u : CodeUnit) : List UInt8 := reverseSolidus :: 0x75 :: u.text

/-- The number of the character that two surrogates stand for. -/
def pairNumber (high low : CodeUnit) : Nat := 0x10000 + (high.number - 0xD800) * 0x400 + (low.number - 0xDC00)

namespace Piece

def text : Piece → List UInt8
  | unescaped c _ => [c]
  | escaped e => [Json.reverseSolidus, e.letter]
  | unit u _ _ _ => escapedUnit u
  | pair high low _ _ => escapedUnit high ++ escapedUnit low

def decoded : Piece → List UInt8
  | unescaped c _ => [c]
  | escaped e => [e.decoded]
  | unit u _ _ _ => String.utf8EncodeChar (Char.ofNat u.number)
  | pair high low _ _ => String.utf8EncodeChar (Char.ofNat (pairNumber high low))

end Piece

/-- What stands between the quotation marks. -/
def content (s : List Piece) : List UInt8 := s.flatMap Piece.text

def stringText (s : List Piece) : List UInt8 := quotationMark :: content s ++ [quotationMark]

def decoded (s : List Piece) : List UInt8 := s.flatMap Piece.decoded

/-! ## Numbers -/

def digits (ds : List (Fin 10)) : List UInt8 := ds.map fun d => UInt8.ofNat (0x30 + d.val)

structure Exponent where
  upper : Bool
  /-- The sign, when there is one: whether it is a minus. -/
  sign : Option Bool
  digits : List (Fin 10)
  digits_ne : digits ≠ []

def signText : Option Bool → List UInt8
  | none => []
  | some true => [0x2D]
  | some false => [0x2B]

def Exponent.text (e : Exponent) : List UInt8 :=
  (if e.upper then 0x45 else 0x65) :: (signText e.sign ++ Json.digits e.digits)

structure Number where
  minus : Bool
  int : List (Fin 10)
  int_ne : int ≠ []
  noLeadingZero : int.head? = some 0 → int = [0]
  frac : Option (List (Fin 10))
  frac_ne : frac ≠ some []
  exp : Option Exponent

def fracText : Option (List (Fin 10)) → List UInt8
  | none => []
  | some ds => 0x2E :: digits ds

def Number.text (n : Number) : List UInt8 :=
  (if n.minus then [0x2D] else []) ++ (digits n.int ++ (fracText n.frac ++ (n.exp.map Exponent.text).getD []))

/-! ## Values -/

inductive Scalar where
  | null
  | boolean (b : Bool)
  | number (n : Number)
  | string (s : List Piece)

def Scalar.text : Scalar → List UInt8
  | null => [0x6E, 0x75, 0x6C, 0x6C]
  | boolean true => [0x74, 0x72, 0x75, 0x65]
  | boolean false => [0x66, 0x61, 0x6C, 0x73, 0x65]
  | number n => n.text
  | string s => stringText s

/-- The text that a scalar stands for: a string's characters, any other scalar as it is written. -/
def Scalar.meaning : Scalar → List UInt8
  | string s => decoded s
  | s => s.text

/-- A name in front of its value. -/
structure Name where
  before : Blanks
  string : List Piece
  beforeColon : Blanks
  afterColon : Blanks

def Name.text (n : Name) : List UInt8 :=
  n.before.bytes ++ stringText n.string ++ n.beforeColon.bytes ++ nameSeparator :: n.afterColon.bytes

mutual

inductive Value where
  | scalar (s : Scalar)
  | emptyArray (inside : Blanks)
  | array (items : Items)
  | emptyObject (inside : Blanks)
  | object (members : Members)

inductive Items where
  | last (before : Blanks) (value : Value) (after : Blanks)
  | cons (before : Blanks) (value : Value) (after : Blanks) (rest : Items)

inductive Members where
  | last (name : Name) (value : Value) (after : Blanks)
  | cons (name : Name) (value : Value) (after : Blanks) (rest : Members)

end

mutual

def Value.text : Value → List UInt8
  | .scalar s => s.text
  | .emptyArray inside => beginArray :: inside.bytes ++ [endArray]
  | .array items => beginArray :: items.text ++ [endArray]
  | .emptyObject inside => beginObject :: inside.bytes ++ [endObject]
  | .object members => beginObject :: members.text ++ [endObject]

def Items.text : Items → List UInt8
  | .last before value after => before.bytes ++ value.text ++ after.bytes
  | .cons before value after rest => before.bytes ++ value.text ++ after.bytes ++ valueSeparator :: rest.text

def Members.text : Members → List UInt8
  | .last name value after => name.text ++ value.text ++ after.bytes
  | .cons name value after rest => name.text ++ value.text ++ after.bytes ++ valueSeparator :: rest.text

end

/-- A member of an object, without its layout. -/
structure Member where
  name : List UInt8
  value : Value

mutual

def Value.members : Value → List Member
  | .scalar _ => []
  | .emptyArray _ => []
  | .array items => items.members
  | .emptyObject _ => []
  | .object members => members.members

def Items.members : Items → List Member
  | .last _ value _ => value.members
  | .cons _ value _ rest => value.members ++ rest.members

def Members.members : Members → List Member
  | .last name value _ => ⟨decoded name.string, value⟩ :: value.members
  | .cons name value _ rest => ⟨decoded name.string, value⟩ :: value.members ++ rest.members

end

structure Document where
  before : Blanks
  value : Value
  after : Blanks

namespace Document

def text (d : Document) : List UInt8 := d.before.bytes ++ d.value.text ++ d.after.bytes

/-- The values of the members of a name. -/
def named (d : Document) (name : List UInt8) : List Value :=
  (d.value.members.filter (·.name = name)).map (·.value)

end Document

/-! ## Characters -/

variable {n : Nat} {u high low : CodeUnit}

theorem CodeUnit.number_lt (u : CodeUnit) : u.number < 0x10000 := by
  have h1 := u.first.value.isLt
  have h2 := u.second.value.isLt
  have h3 := u.third.value.isLt
  have h4 := u.fourth.value.isLt
  unfold CodeUnit.number
  omega

theorem charOfNat_number (h : n.isValidChar) : (Char.ofNat n).val.toNat = n := by
  rw [Char.ofNat, dif_pos h]
  rfl

theorem unit_valid (hhigh : ¬u.IsHigh) (hlow : ¬u.IsLow) : u.number.isValidChar := by
  have hlt := u.number_lt
  unfold CodeUnit.IsHigh at hhigh
  unfold CodeUnit.IsLow at hlow
  unfold Nat.isValidChar
  omega

/-- A pair stands for a character outside the basic plane. -/
theorem pair_bounds (hhigh : high.IsHigh) (hlow : low.IsLow) :
    0xFFFF < pairNumber high low ∧ pairNumber high low < 0x110000 := by
  obtain ⟨hh, hh'⟩ := hhigh
  obtain ⟨hl, hl'⟩ := hlow
  unfold pairNumber
  omega

theorem pair_valid (hhigh : high.IsHigh) (hlow : low.IsLow) : (pairNumber high low).isValidChar := by
  obtain ⟨hmin, hmax⟩ := pair_bounds hhigh hlow
  unfold Nat.isValidChar
  omega

theorem byte_ne_zero (hpos : 0 < n) (hlt : n < 256) : (0 : UInt8) ≠ UInt8.ofNat n := by
  intro hzero
  have hnat := congrArg UInt8.toNat hzero
  rw [UInt8.toNat_ofNat_of_lt' hlt] at hnat
  exact absurd hnat (Nat.ne_of_lt hpos)

/-- Only NUL is encoded with a zero. -/
theorem encode_noNul {ch : Char} (h : ch.val.toNat ≠ 0) : 0 ∉ String.utf8EncodeChar ch := by
  have hvalid : ch.val.toNat < 0x110000 := by
    rcases ch.valid with hlow | hhigh
    · exact Nat.lt_of_lt_of_le hlow (by decide)
    · exact hhigh.2
  unfold String.utf8EncodeChar
  generalize ch.val.toNat = v at h hvalid
  intro hmem
  dsimp only at hmem
  split at hmem
  · rw [List.mem_singleton] at hmem
    exact byte_ne_zero (by omega) (by omega) hmem
  · split at hmem
    · rcases List.mem_pair.mp hmem with hmem | hmem
      · exact byte_ne_zero (by omega) (by omega) hmem
      · exact byte_ne_zero (by omega) (by omega) hmem
    · split at hmem
      · rcases List.mem_cons.mp hmem with hmem | hmem
        · exact byte_ne_zero (by omega) (by omega) hmem
        · rcases List.mem_pair.mp hmem with hmem | hmem
          · exact byte_ne_zero (by omega) (by omega) hmem
          · exact byte_ne_zero (by omega) (by omega) hmem
      · rcases List.mem_cons.mp hmem with hmem | hmem
        · exact byte_ne_zero (by omega) (by omega) hmem
        · rcases List.mem_cons.mp hmem with hmem | hmem
          · exact byte_ne_zero (by omega) (by omega) hmem
          · rcases List.mem_pair.mp hmem with hmem | hmem
            · exact byte_ne_zero (by omega) (by omega) hmem
            · exact byte_ne_zero (by omega) (by omega) hmem

theorem encode_length (ch : Char) : (String.utf8EncodeChar ch).length ≤ 4 := by
  rw [String.length_utf8EncodeChar]
  exact ch.utf8Size_le_four

theorem escapedUnit_length (u : CodeUnit) : (escapedUnit u).length = 6 := rfl

/-- No piece is longer than it is written. -/
theorem Piece.decoded_length (p : Piece) : p.decoded.length ≤ p.text.length := by
  cases p with
  | unescaped c h => exact Nat.le_refl 1
  | escaped e => exact Nat.le_succ 1
  | unit u _ _ _ =>
      have hlen := encode_length (Char.ofNat u.number)
      rw [Piece.decoded, Piece.text, escapedUnit_length]
      omega
  | pair high low _ _ =>
      have hlen := encode_length (Char.ofNat (pairNumber high low))
      rw [Piece.decoded, Piece.text, List.length_append, escapedUnit_length, escapedUnit_length]
      omega

theorem Piece.decoded_noNul (p : Piece) : 0 ∉ p.decoded := by
  cases p with
  | unescaped c h =>
      intro hmem
      rw [← List.mem_singleton.mp hmem] at h
      exact absurd h.1 (by decide)
  | escaped e => cases e <;> exact (by decide)
  | unit u hnul hhigh hlow =>
      rw [Piece.decoded]
      apply encode_noNul
      rw [charOfNat_number (unit_valid hhigh hlow)]
      exact hnul
  | pair high low hhigh hlow =>
      rw [Piece.decoded]
      apply encode_noNul
      rw [charOfNat_number (pair_valid hhigh hlow)]
      exact Nat.ne_of_gt (Nat.lt_of_le_of_lt (Nat.zero_le _) (pair_bounds hhigh hlow).1)

theorem decoded_noNul (s : List Piece) : 0 ∉ decoded s := by
  intro hmem
  obtain ⟨p, -, hp⟩ := List.mem_flatMap.mp hmem
  exact p.decoded_noNul hp

end Vnt.Lib.Json
