import Vnt.Lib.Json
import Vnt.Runtime.JsonValue

/-!
# `Runtime.JsonString` — the strings of a JSON text

The scan gets from the quote in front of a string to the quote behind it, whatever the escapes between them; the copy writes
down the characters that the string stands for. No piece is decoded to more bytes than it is written with, so a buffer as
long as the string is never full before the quote.
-/

namespace Vnt.Runtime

open Lib (Buffer Turn Comes)
open Lib.Json (HexDigit CodeUnit Escape Piece IsUnescaped escapedUnit pairNumber content stringText decoded)
open Net (Bytes)

variable {rest : Bytes} {out : Buffer UInt8} {cap n d i : Nat} {u high low : CodeUnit} {c : UInt8}

/-! ## Code units -/

theorem jsonHexDigit_byte (d : HexDigit) : jsonHexDigit d.byte = some d.value.val := by
  have hall : ∀ (value : Fin 16) (upper : Bool), jsonHexDigit (HexDigit.byte ⟨value, upper⟩) = some value.val := by
    decide
  exact hall d.value d.upper

/-- A digit joined to those before it. -/
theorem shift_or (h : d < 16) : (n <<< 4) ||| d = n * 16 + d := by
  have hor := @Nat.two_pow_add_eq_or_of_lt 4 d h n
  rw [Nat.shiftLeft_eq, Nat.mul_comm n, ← hor]

theorem readHexDigits_byte (d : HexDigit) (p : Bytes) (result : Nat) :
    readHexDigits (i + 1) (d.byte :: p) result = readHexDigits i p (result * 16 + d.value.val) := by
  rw [readHexDigits, jsonHexDigit_byte]
  show readHexDigits i p ((result <<< 4) ||| d.value.val) = _
  rw [shift_or d.value.isLt]

theorem readHex4_unit (u : CodeUnit) (rest : Bytes) : readHex4 (u.text ++ rest) = some (rest, u.number) := by
  show readHexDigits 4 (u.first.byte :: u.second.byte :: u.third.byte :: u.fourth.byte :: rest) 0 = _
  rw [readHexDigits_byte, readHexDigits_byte, readHexDigits_byte, readHexDigits_byte, Nat.zero_mul, Nat.zero_add]
  rfl

theorem readCodepoint_unit (hhigh : ¬u.IsHigh) (hlow : ¬u.IsLow) (rest : Bytes) :
    readCodepoint (u.text ++ rest) = some (rest, u.number) := by
  unfold readCodepoint
  rw [readHex4_unit]
  show (if u.IsHigh then _ else if u.IsLow then _ else _) = _
  rw [if_neg hhigh, if_neg hlow]

theorem readLow_unit (hlow : low.IsLow) (rest : Bytes) : readLow (escapedUnit low ++ rest) = some (rest, low.number) := by
  show readLow (backslash :: 0x75 :: (low.text ++ rest)) = _
  rw [readLow, if_pos ⟨rfl, rfl⟩, readHex4_unit]
  exact if_pos hlow

theorem readCodepoint_pair (hhigh : high.IsHigh) (hlow : low.IsLow) (rest : Bytes) :
    readCodepoint (high.text ++ (escapedUnit low ++ rest)) = some (rest, pairNumber high low) := by
  unfold readCodepoint
  rw [readHex4_unit]
  show (if high.IsHigh then _ else _) = _
  rw [if_pos hhigh, readLow_unit hlow]
  dsimp only
  rw [Nat.shiftLeft_eq]
  rfl

/-! ## UTF-8 -/

theorem or_lead {lead k : Nat} (a : Nat) (hlead : lead = 2 ^ k * a) (h : n < 2 ^ k) : lead ||| n = n + lead := by
  rw [hlead, ← Nat.two_pow_add_eq_or_of_lt h a, Nat.add_comm]

/-- A continuation byte. -/
theorem or_tail (n : Nat) : 0x80 ||| (n &&& 0x3f) = n % 0x40 + 0x80 := by
  have hmask := Nat.and_two_pow_sub_one_eq_mod n 6
  rw [show (0x3f : Nat) = 2 ^ 6 - 1 from rfl, hmask]
  exact or_lead 2 rfl (Nat.mod_lt n (by decide))

theorem codepointBytes_encode (h : n.isValidChar) :
    codepointBytes n = some (String.utf8EncodeChar (Char.ofNat n)) := by
  have hval := Lib.Json.charOfNat_number h
  unfold codepointBytes String.utf8EncodeChar
  dsimp only
  rw [hval, or_tail, or_tail, or_tail, Nat.shiftRight_eq_div_pow, Nat.shiftRight_eq_div_pow, Nat.shiftRight_eq_div_pow]
  by_cases h1 : n ≤ 0x7f
  · rw [if_pos h1, if_pos h1]
  rw [if_neg h1, if_neg h1]
  by_cases h2 : n ≤ 0x7ff
  · have hlead : 0xc0 ||| n / 2 ^ 6 = n / 64 % 0x20 + 0xc0 := by
      rw [@or_lead (n / 2 ^ 6) 0xc0 5 6 rfl (by omega)]
      omega
    rw [if_pos h2, if_pos h2, hlead]
  rw [if_neg h2, if_neg h2]
  by_cases h3 : n ≤ 0xffff
  · have hlead : 0xe0 ||| n / 2 ^ 12 = n / 4096 % 0x10 + 0xe0 := by
      rw [@or_lead (n / 2 ^ 12) 0xe0 4 14 rfl (by omega)]
      omega
    have hplane : n ≤ 0xffff ∧ ¬(0xd800 ≤ n ∧ n ≤ 0xdfff) := by
      unfold Nat.isValidChar at h
      omega
    rw [if_pos hplane, if_pos h3, hlead]
  · have hmax : n ≤ 0x10ffff := by
      unfold Nat.isValidChar at h
      omega
    have hlead : 0xf0 ||| n / 2 ^ 18 = n / 262144 % 0x08 + 0xf0 := by
      rw [@or_lead (n / 2 ^ 18) 0xf0 3 30 rfl (by omega)]
      omega
    rw [if_neg (fun hplane => h3 hplane.1), if_pos hmax, if_neg h3, hlead]

/-! ## The copy -/

/-- One piece, when there is room for as many bytes as it is written with. -/
abbrev CopiesPiece (text bytes : Bytes) : Prop :=
  ∀ {out : Buffer UInt8} (rest : Bytes), out.text.length + text.length < out.cap →
    ∃ out', copyTurn (text ++ rest, out) = .ok (.next (rest, out')) ∧ out.Extends bytes out'

theorem copyChar_ok (ch : UInt8) (hroom : out.text.length + 1 < out.cap) :
    ∃ out', copyChar rest out ch = .ok (.next (rest, out')) ∧ out.Extends [ch] out' := by
  obtain ⟨out', hput, hext⟩ := @Buffer.put_ok _ _ JsonError.pastBuffer ch out (by omega)
  have hlen := hext.length
  have hcap := hext.cap
  rw [List.length_singleton] at hlen
  refine ⟨out', ?_, hext⟩
  unfold copyChar
  rw [if_neg (by omega), hput]
  show (out'.terminate _ >>= _) = _
  rw [Buffer.terminate_ok (by omega)]
  rfl

theorem appendCodepoint_ok (h : n.isValidChar) (hroom : out.text.length + 4 < out.cap) :
    ∃ out', appendCodepoint out n = .ok (some out') ∧ out.Extends (String.utf8EncodeChar (Char.ofNat n)) out' := by
  have hlen := Lib.Json.encode_length (Char.ofNat n)
  obtain ⟨out', hput, hterminate, hext, -⟩ := @putAll_terminate out (String.utf8EncodeChar (Char.ofNat n)) (by omega)
  refine ⟨out', ?_, hext⟩
  unfold appendCodepoint
  rw [codepointBytes_encode h]
  dsimp only
  rw [if_neg (by omega), hput]
  show (out'.terminate _ >>= _) = _
  rw [hterminate]
  rfl

theorem copyUnit_ok {p : Bytes} (hread : readCodepoint p = some (rest, n)) (h : n.isValidChar)
    (hroom : out.text.length + 4 < out.cap) : ∃ out', copyUnit p out = .ok (.next (rest, out')) ∧
      out.Extends (String.utf8EncodeChar (Char.ofNat n)) out' := by
  obtain ⟨out', happend, hext⟩ := appendCodepoint_ok h hroom
  refine ⟨out', ?_, hext⟩
  unfold copyUnit
  rw [hread]
  dsimp only
  rw [happend]
  rfl

/-- Behind a backslash. -/
theorem copyTurn_escape (letter : UInt8) (rest : Bytes) (hroom : out.text.length + 1 < out.cap) :
    copyTurn (backslash :: letter :: rest, out) =
      if letter = 0x75 then copyUnit rest out else copyChar rest out (unescape letter) := by
  have hgo : ¬(backslash = doubleQuote ∨ ¬out.text.length + 1 < out.cap) := by
    rintro (hquote | hfull)
    · exact absurd hquote (by decide)
    · exact hfull hroom
  unfold copyTurn
  dsimp only
  rw [if_neg hgo, if_pos rfl]

theorem unescape_letter (e : Escape) : e.letter ≠ 0x75 ∧ unescape e.letter = e.decoded := by
  cases e <;> exact ⟨by decide, by decide⟩

theorem copyTurn_piece (p : Piece) : CopiesPiece p.text p.decoded := by
  intro out rest hroom
  cases p with
  | unescaped c h =>
      have hstop : ¬(c = doubleQuote ∨ ¬out.text.length + 1 < out.cap) := by
        rintro (hquote | hfull)
        · exact h.2.1 hquote
        · exact hfull hroom
      have hslash : c ≠ backslash := h.2.2
      show ∃ out', copyTurn (c :: rest, out) = _ ∧ _
      unfold copyTurn
      dsimp only
      rw [if_neg hstop, if_neg hslash]
      exact copyChar_ok c hroom
  | escaped e =>
      obtain ⟨hletter, hdecoded⟩ := unescape_letter e
      have hroom' : out.text.length + 1 < out.cap := Nat.lt_of_succ_lt hroom
      show ∃ out', copyTurn (backslash :: e.letter :: rest, out) = _ ∧ _
      rw [copyTurn_escape _ _ hroom', if_neg hletter, hdecoded]
      exact copyChar_ok _ hroom'
  | unit u hnul hhigh hlow =>
      rw [Piece.text, Lib.Json.escapedUnit_length] at hroom
      rw [Piece.decoded]
      show ∃ out', copyTurn (backslash :: 0x75 :: (u.text ++ rest), out) = _ ∧ _
      rw [copyTurn_escape _ _ (by omega), if_pos rfl]
      exact copyUnit_ok (readCodepoint_unit hhigh hlow rest) (Lib.Json.unit_valid hhigh hlow) (by omega)
  | pair high low hhigh hlow =>
      rw [Piece.text, List.length_append, Lib.Json.escapedUnit_length, Lib.Json.escapedUnit_length] at hroom
      rw [Piece.text, Piece.decoded, List.append_assoc]
      show ∃ out', copyTurn (backslash :: 0x75 :: (high.text ++ (escapedUnit low ++ rest)), out) = _ ∧ _
      rw [copyTurn_escape _ _ (by omega), if_pos rfl]
      exact copyUnit_ok (readCodepoint_pair hhigh hlow rest) (Lib.Json.pair_valid hhigh hlow) (by omega)

/-- The copy gets through a string one piece a turn. -/
theorem comes_content (s : List Piece) : ∀ {out : Buffer UInt8}, out.text.length + (content s).length < out.cap →
    ∃ out', Comes copyTurn (content s).length (content s ++ rest, out) (rest, out') ∧ out.Extends (decoded s) out' := by
  induction s with
  | nil =>
      intro out _
      exact ⟨out, .refl _, .refl out⟩
  | cons p s ih =>
      intro out hroom
      have hsplit : content (p :: s) = p.text ++ content s := rfl
      have hdecoded := p.decoded_length
      rw [hsplit, List.length_append] at hroom
      rw [hsplit, List.append_assoc, List.length_append]
      obtain ⟨out₁, hturn, hext₁⟩ := @copyTurn_piece p out (content s ++ rest) (by omega)
      have hlen₁ := hext₁.length
      have hcap₁ := hext₁.cap
      obtain ⟨out₂, hcomes, hext₂⟩ := @ih out₁ (by omega)
      have hpos : 1 ≤ p.text.length := by
        cases p <;> exact Nat.succ_pos _
      exact ⟨out₂, ((Comes.step hturn).mono hpos).trans hcomes, hext₁.trans hext₂⟩

/-- A string is copied decoded. -/
theorem copyString_quoted (s : List Piece) (rest : Bytes) (hcap : (content s).length < cap) :
    ∃ out, copyString (stringText s ++ rest) cap = .ok out ∧ out.text = decoded s := by
  have hfresh : (Buffer.fresh cap : Buffer UInt8).text.length < (Buffer.fresh cap : Buffer UInt8).cap := by
    rw [Buffer.fresh_text, Buffer.fresh_cap, List.length_nil]
    omega
  obtain ⟨out, hcomes, hext⟩ := @comes_content (doubleQuote :: rest) s (.fresh cap) (by
    rw [Buffer.fresh_text, Buffer.fresh_cap, List.length_nil, Nat.zero_add]
    exact hcap)
  have hskip : skipQuote (stringText s ++ rest) = content s ++ doubleQuote :: rest := by
    have hquote : stringText s ++ rest = doubleQuote :: (content s ++ [doubleQuote] ++ rest) := rfl
    rw [hquote, skipQuote, if_pos rfl, List.append_assoc]
    rfl
  have hstop : copyTurn (doubleQuote :: rest, out) = .ok (.done out) := by
    unfold copyTurn
    exact if_pos (Or.inl rfl)
  have hfuel : (content s).length < (stringText s ++ rest).length + 1 := by
    rw [stringText, List.length_append, List.length_append, List.length_cons]
    omega
  refine ⟨out, ?_, hext.text⟩
  unfold copyString
  rw [if_neg (by omega), Buffer.terminate_ok hfresh, hskip]
  exact hcomes.finish hstop hfuel

/-! ## The scan -/

theorem scanString_plain (hslash : c ≠ backslash) (hquote : c ≠ doubleQuote) (p : Bytes) :
    scanString false (c :: p) = scanString false p := by
  rw [scanString, if_neg hslash, if_neg hquote]

theorem scanString_escape (letter : UInt8) (p : Bytes) :
    scanString false (backslash :: letter :: p) = scanString false p := by
  rw [scanString, if_pos rfl, scanString]

theorem hexDigit_plain (d : HexDigit) : d.byte ≠ backslash ∧ d.byte ≠ doubleQuote := by
  have hall : ∀ (value : Fin 16) (upper : Bool),
      HexDigit.byte ⟨value, upper⟩ ≠ backslash ∧ HexDigit.byte ⟨value, upper⟩ ≠ doubleQuote := by
    decide
  exact hall d.value d.upper

theorem scanString_unit (u : CodeUnit) (p : Bytes) : scanString false (escapedUnit u ++ p) = scanString false p := by
  obtain ⟨h1, h1'⟩ := hexDigit_plain u.first
  obtain ⟨h2, h2'⟩ := hexDigit_plain u.second
  obtain ⟨h3, h3'⟩ := hexDigit_plain u.third
  obtain ⟨h4, h4'⟩ := hexDigit_plain u.fourth
  show scanString false (backslash :: 0x75 :: u.first.byte :: u.second.byte :: u.third.byte :: u.fourth.byte :: p) = _
  rw [scanString_escape, scanString_plain h1 h1', scanString_plain h2 h2', scanString_plain h3 h3',
    scanString_plain h4 h4']

theorem scanString_content (s : List Piece) (rest : Bytes) :
    scanString false (content s ++ doubleQuote :: rest) = doubleQuote :: rest := by
  induction s with
  | nil =>
      show scanString false (doubleQuote :: rest) = _
      rw [scanString, if_neg (by decide), if_pos rfl]
  | cons p s ih =>
      have hsplit : content (p :: s) = p.text ++ content s := rfl
      rw [hsplit, List.append_assoc]
      apply Eq.trans _ ih
      cases p with
      | unescaped c h => exact scanString_plain h.2.2 h.2.1 _
      | escaped e => exact scanString_escape _ _
      | unit u _ _ _ => exact scanString_unit _ _
      | pair high low _ _ =>
          rw [Piece.text, List.append_assoc, scanString_unit, scanString_unit]

end Vnt.Runtime
