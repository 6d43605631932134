import Vnt.Net.Response
import Vnt.Runtime.WinArg

/-!
# `Runtime.JsonValue` — a scalar field of a JSON text (`vnt_json_value_at`)

The text is not parsed: the scan goes from one string to the next, and a string with a colon behind it is the name of a
member. A pointer into a text is what is left of the text from there on, so that it cannot get behind the terminator. The
two buffers are as long as what they are decoded from, and every write into them is checked.
-/

namespace Vnt.Runtime

open Lib (Buffer Turn)
open Net (Bytes cString space tab cr lf colon comma)

inductive JsonError where
  /-- A write behind the end of a buffer. -/
  | pastBuffer
  | outOfClock
  deriving DecidableEq, Repr

/-! ## `vnt_json_read_hex4` -/

def jsonHexDigit (ch : UInt8) : Option Nat :=
  if 0x30 ≤ ch ∧ ch ≤ 0x39 then some (ch.toNat - 0x30)
  else if 0x61 ≤ ch ∧ ch ≤ 0x66 then some (ch.toNat - 0x61 + 10)
  else if 0x41 ≤ ch ∧ ch ≤ 0x46 then some (ch.toNat - 0x41 + 10)
  else none

/-- `for (int i = 0; i < 4; i++) { … }`, with the turns that are left. -/
def readHexDigits : Nat → Bytes → Nat → Option (Bytes × Nat)
  | 0, p, result => some (p, result)
  | _ + 1, [], _ => none
  | i + 1, ch :: p, result => do
      let digit ← jsonHexDigit ch
      readHexDigits i p ((result <<< 4) ||| digit)

/-- The number and what is behind it; `none` leaves the pointer where it is. -/
def readHex4 (p : Bytes) : Option (Bytes × Nat) := readHexDigits 4 p 0

/-! ## `vnt_json_append_codepoint` -/

def codepointBytes (cp : Nat) : Option Bytes :=
  if cp ≤ 0x7f then some [UInt8.ofNat cp]
  else if cp ≤ 0x7ff then some [UInt8.ofNat (0xc0 ||| (cp >>> 6)), UInt8.ofNat (0x80 ||| (cp &&& 0x3f))]
  else if cp ≤ 0xffff ∧ ¬(0xd800 ≤ cp ∧ cp ≤ 0xdfff) then
    some [UInt8.ofNat (0xe0 ||| (cp >>> 12)), UInt8.ofNat (0x80 ||| ((cp >>> 6) &&& 0x3f)),
      UInt8.ofNat (0x80 ||| (cp &&& 0x3f))]
  else if cp ≤ 0x10ffff then
    some [UInt8.ofNat (0xf0 ||| (cp >>> 18)), UInt8.ofNat (0x80 ||| ((cp >>> 12) &&& 0x3f)),
      UInt8.ofNat (0x80 ||| ((cp >>> 6) &&& 0x3f)), UInt8.ofNat (0x80 ||| (cp &&& 0x3f))]
  else none

/-- `none` is the return of 0. -/
def appendCodepoint (out : Buffer UInt8) (cp : Nat) : Except JsonError (Option (Buffer UInt8)) :=
  match codepointBytes cp with
  | none => pure none
  | some bytes =>
      if out.text.length ≥ out.cap ∨ bytes.length ≥ out.cap - out.text.length then pure none
      else do
        let out ← Buffer.putAll .pastBuffer bytes out
        let out ← out.terminate .pastBuffer
        pure (some out)

/-! ## `vnt_json_copy_string` -/

/-- The cases of the switch that change `ch`. -/
def unescape (ch : UInt8) : UInt8 :=
  if ch = 0x6E then lf
  else if ch = 0x72 then cr
  else if ch = 0x74 then tab
  else if ch = 0x62 then 0x08
  else if ch = 0x66 then 0x0C
  else ch

/-- The second half of a pair: `none` when there is none. -/
def readLow (p : Bytes) : Option (Bytes × Nat) :=
  match p with
  | c :: u :: next =>
      if c = backslash ∧ u = 0x75 then do
        let (next, low) ← readHex4 next
        if 0xdc00 ≤ low ∧ low ≤ 0xdfff then some (next, low) else none
      else none
  | _ => none

/-- `case 'u'`, up to where the character is appended. -/
def readCodepoint (p : Bytes) : Option (Bytes × Nat) := do
  let (p, cp) ← readHex4 p
  if 0xd800 ≤ cp ∧ cp ≤ 0xdbff then
    match readLow p with
    | some (next, low) => some (next, 0x10000 + ((cp - 0xd800) <<< 10) + (low - 0xdc00))
    | none => some (p, 0xfffd)
  else if 0xdc00 ≤ cp ∧ cp ≤ 0xdfff then some (p, 0xfffd)
  else some (p, cp)

/-- The end of the loop's body. -/
def copyChar (p : Bytes) (out : Buffer UInt8) (ch : UInt8) :
    Except JsonError (Turn (Bytes × Buffer UInt8) (Buffer UInt8)) :=
  if out.text.length + 1 ≥ out.cap then pure (.done out)
  else do
    let out ← out.put .pastBuffer ch
    let out ← out.terminate .pastBuffer
    pure (.next (p, out))

/-- Behind a `\u`. -/
def copyUnit (p : Bytes) (out : Buffer UInt8) : Except JsonError (Turn (Bytes × Buffer UInt8) (Buffer UInt8)) :=
  match readCodepoint p with
  | none => copyChar p out 0x3F
  | some (p, cp) => do
      match ← appendCodepoint out cp with
      | none => pure (.done out)
      | some out => pure (.next (p, out))

/-- `while (*p && *p != '"' && n + 1 < cap) { … }` -/
def copyTurn : Bytes × Buffer UInt8 → Except JsonError (Turn (Bytes × Buffer UInt8) (Buffer UInt8))
  | ([], out) => pure (.done out)
  | (ch :: p, out) =>
      if ch = doubleQuote ∨ ¬out.text.length + 1 < out.cap then pure (.done out)
      else if ch = backslash then
        match p with
        | [] => copyChar [] out ch
        | ch :: p => if ch = 0x75 then copyUnit p out else copyChar p out (unescape ch)
      else copyChar p out ch

/-- `if (*p == '"') p++;` -/
def skipQuote : Bytes → Bytes
  | [] => []
  | c :: p => if c = doubleQuote then p else c :: p

/-- The string at `p`, into a buffer of its own. -/
def copyString (p : Bytes) (cap : Nat) : Except JsonError (Buffer UInt8) :=
  if cap = 0 then pure (.fresh cap)
  else do
    let out ← (Buffer.fresh cap).terminate .pastBuffer
    Lib.loop .outOfClock copyTurn (p.length + 1) (skipQuote p, out)

/-! ## `vnt_json_extract_value` -/

/-- The first unescaped quote. -/
def scanString : Bool → Bytes → Bytes
  | _, [] => []
  | true, _ :: p => scanString false p
  | false, c :: p => if c = backslash then scanString true p else if c = doubleQuote then c :: p else scanString false p

def isJsonBlank (c : UInt8) : Bool := c = space ∨ c = tab ∨ c = cr ∨ c = lf

@[simp] def skipBlanks : Bytes → Bytes
  | [] => []
  | c :: p => if isJsonBlank c then skipBlanks p else c :: p

/-- `while (after[n] && after[n] != ',' && … && n + 1 < cap) n++;` -/
def literalEnd (cap : Nat) : Bytes → Nat → Nat
  | [], n => n
  | c :: rest, n => if c ≠ comma ∧ c ≠ 0x7D ∧ c ≠ 0x5D ∧ n + 1 < cap then literalEnd cap rest (n + 1) else n

/-- `while (n > 0 && …) n--;` -/
def trimEnd (after : Bytes) : Nat → Nat
  | 0 => 0
  | n + 1 => if (after[n]?.map isJsonBlank).getD false then trimEnd after n else n + 1

/-- Behind the colon of the member that is wanted. -/
def copyValue (after : Bytes) (cap : Nat) : Except JsonError (Buffer UInt8) :=
  let p := skipBlanks after
  if p.head? = some doubleQuote then copyString p cap
  else do
    let n := trimEnd p (literalEnd cap p 0)
    let out ← Buffer.putAll .pastBuffer (p.take n) (.fresh cap)
    out.terminate .pastBuffer

/-- What a string is followed by: the text behind the colon, when it is the name of a member. -/
def behindColon (after : Bytes) : Option Bytes :=
  match skipBlanks after with
  | [] => none
  | c :: rest => if c = colon then some rest else none

/-- `while (*p) { … }`, from the quote of a string on. -/
def stringTurn (key : Bytes) (wanted : Int) (cap : Nat) (quote : UInt8) (start : Bytes) (found : Int) :
    Except JsonError (Turn (Bytes × Int) (Buffer UInt8)) :=
  match scanString false start with
  | [] => pure (.done (.fresh cap))
  | _ :: behind =>
      match behindColon behind with
      | none => pure (.next (behind, found))
      | some value => do
          let keyLen := start.length - (behind.length + 1)
          let decodedKey ← copyString (quote :: start) (keyLen + 1)
          if cString decodedKey.text = key then
            if found = wanted then do
              let out ← copyValue value cap
              pure (.done out)
            else pure (.next (behind, found + 1))
          else pure (.next (behind, found))

def extractTurn (key : Bytes) (wanted : Int) (cap : Nat) :
    Bytes × Int → Except JsonError (Turn (Bytes × Int) (Buffer UInt8))
  | ([], _) => pure (.done (.fresh cap))
  | (c :: start, found) =>
      if c ≠ doubleQuote then pure (.next (start, found)) else stringTurn key wanted cap c start found

def extractValue (json key : Bytes) (wanted : Int) (cap : Nat) : Except JsonError (Buffer UInt8) := do
  let out ← (Buffer.fresh cap).terminate .pastBuffer
  if wanted < 0 ∨ cap < 2 then pure out
  else Lib.loop .outOfClock (extractTurn key wanted cap) (json.length + 1) (json, 0)

/-- The text of the new string. -/
def jsonValueAt (json key : CString) (index : Int) : Except JsonError Bytes := do
  let out ← extractValue json.bytes key.bytes index (json.bytes.length + 1)
  pure (cString out.text)

/-! ## No write is out of bounds -/

variable {p p' after key start : Bytes} {out out' : Buffer UInt8} {cap cp n : Nat} {wanted found : Int}

theorem readHexDigits_length (i : Nat) : ∀ {p : Bytes} {result cp : Nat}, readHexDigits i p result = some (p', cp) →
    p'.length ≤ p.length := by
  induction i with
  | zero =>
      intro p result cp h
      obtain ⟨rfl, -⟩ := Prod.mk.inj (Option.some.inj h)
      exact Nat.le_refl _
  | succ i ih =>
      intro p result cp h
      cases p with
      | nil => exact absurd h nofun
      | cons ch p =>
          obtain ⟨digit, -, hrest⟩ := Option.bind_eq_some_iff.mp h
          exact Nat.le_succ_of_le (ih hrest)

theorem readHex4_length (h : readHex4 p = some (p', cp)) : p'.length ≤ p.length := readHexDigits_length 4 h

theorem readLow_length (h : readLow p = some (p', cp)) : p'.length ≤ p.length := by
  rcases p with _ | ⟨c, _ | ⟨u, next⟩⟩
  · exact absurd h nofun
  · exact absurd h nofun
  · by_cases hescape : c = backslash ∧ u = 0x75
    · rw [readLow, if_pos hescape] at h
      obtain ⟨⟨q, low⟩, hread, hlow⟩ := Option.bind_eq_some_iff.mp h
      have hlen := readHex4_length hread
      dsimp only at hlow
      split at hlow
      · obtain ⟨rfl, -⟩ := Prod.mk.inj (Option.some.inj hlow)
        rw [List.length_cons, List.length_cons]
        omega
      · exact absurd hlow nofun
    · rw [readLow, if_neg hescape] at h
      exact absurd h nofun

theorem readCodepoint_length (h : readCodepoint p = some (p', cp)) : p'.length ≤ p.length := by
  obtain ⟨⟨q, unit⟩, hread, hrest⟩ := Option.bind_eq_some_iff.mp h
  have hlen := readHex4_length hread
  dsimp only at hrest
  split at hrest
  · split at hrest
    next next low hlow =>
      obtain ⟨rfl, -⟩ := Prod.mk.inj (Option.some.inj hrest)
      exact Nat.le_trans (readLow_length hlow) hlen
    next =>
      obtain ⟨rfl, -⟩ := Prod.mk.inj (Option.some.inj hrest)
      exact hlen
  · split at hrest
    · obtain ⟨rfl, -⟩ := Prod.mk.inj (Option.some.inj hrest)
      exact hlen
    · obtain ⟨rfl, -⟩ := Prod.mk.inj (Option.some.inj hrest)
      exact hlen

/-- There is room for the terminator. -/
def Roomy (out : Buffer UInt8) : Prop := out.text.length < out.cap

/-- A stretch of bytes and the terminator behind them. -/
theorem putAll_terminate (bytes : Bytes) (hroom : out.text.length + bytes.length < out.cap) :
    ∃ out', Buffer.putAll JsonError.pastBuffer bytes out = .ok out' ∧ out'.terminate JsonError.pastBuffer = .ok out' ∧
      out.Extends bytes out' ∧ Roomy out' := by
  obtain ⟨out', hput, hext⟩ := @Buffer.putAll_ok _ _ JsonError.pastBuffer bytes out (by omega)
  have hlen := hext.length
  have hcap := hext.cap
  have hroomy : Roomy out' := by
    unfold Roomy
    omega
  exact ⟨out', hput, Buffer.terminate_ok hroomy, hext, hroomy⟩

theorem appendCodepoint_safe (out : Buffer UInt8) (cp : Nat) :
    ∃ r, appendCodepoint out cp = .ok r ∧ ∀ out', r = some out' → Roomy out' := by
  unfold appendCodepoint
  cases codepointBytes cp with
  | none => exact ⟨none, rfl, fun _ h => absurd h nofun⟩
  | some bytes =>
      dsimp only
      by_cases hfull : out.text.length ≥ out.cap ∨ bytes.length ≥ out.cap - out.text.length
      · rw [if_pos hfull]
        exact ⟨none, rfl, fun _ h => absurd h nofun⟩
      · rw [if_neg hfull]
        obtain ⟨out', hput, hterminate, -, hroomy⟩ := @putAll_terminate out bytes (by omega)
        refine ⟨some out', ?_, ?_⟩
        · rw [hput]
          show (out'.terminate _ >>= _) = _
          rw [hterminate]
          rfl
        · intro out'' h
          rw [← Option.some.inj h]
          exact hroomy

/-- A turn of the copy keeps the room and gets closer to the end of the text. -/
abbrev CopyAdvances (s : Bytes × Buffer UInt8) (turn : Turn (Bytes × Buffer UInt8) (Buffer UInt8)) : Prop :=
  Lib.Advances (fun s => Roomy s.2) Roomy (fun s => s.1.length) s turn

variable {s : Bytes × Buffer UInt8}

theorem copyChar_safe (ch : UInt8) (hroomy : Roomy out) (hless : p.length < s.1.length) :
    ∃ turn, copyChar p out ch = .ok turn ∧ CopyAdvances s turn := by
  unfold copyChar
  by_cases hfull : out.text.length + 1 ≥ out.cap
  · rw [if_pos hfull]
    exact ⟨.done out, rfl, hroomy⟩
  · rw [if_neg hfull]
    obtain ⟨out', hput, hext⟩ := @Buffer.put_ok _ _ JsonError.pastBuffer ch out hroomy
    have hlen := hext.length
    have hcap := hext.cap
    rw [List.length_singleton] at hlen
    have hroomy' : Roomy out' := by
      unfold Roomy
      omega
    refine ⟨.next (p, out'), ?_, hroomy', hless⟩
    rw [hput]
    show (out'.terminate _ >>= _) = _
    rw [Buffer.terminate_ok hroomy']
    rfl

theorem copyUnit_safe (hroomy : Roomy out) (hless : p.length < s.1.length) :
    ∃ turn, copyUnit p out = .ok turn ∧ CopyAdvances s turn := by
  unfold copyUnit
  cases hread : readCodepoint p with
  | none => exact copyChar_safe 0x3F hroomy hless
  | some r =>
      obtain ⟨p', cp⟩ := r
      have hlen := readCodepoint_length hread
      obtain ⟨r, happend, hr⟩ := appendCodepoint_safe out cp
      dsimp only
      rw [happend]
      cases r with
      | none => exact ⟨.done out, rfl, hroomy⟩
      | some out' => exact ⟨.next (p', out'), rfl, hr out' rfl, Nat.lt_of_le_of_lt hlen hless⟩

theorem copyTurn_safe (s : Bytes × Buffer UInt8) (hroomy : Roomy s.2) :
    ∃ turn, copyTurn s = .ok turn ∧ CopyAdvances s turn := by
  obtain ⟨p, out⟩ := s
  cases p with
  | nil => exact ⟨.done out, rfl, hroomy⟩
  | cons ch p =>
      unfold copyTurn
      dsimp only
      by_cases hstop : ch = doubleQuote ∨ ¬out.text.length + 1 < out.cap
      · rw [if_pos hstop]
        exact ⟨.done out, rfl, hroomy⟩
      rw [if_neg hstop]
      by_cases hslash : ch = backslash
      · rw [if_pos hslash]
        cases p with
        | nil => exact copyChar_safe ch hroomy (Nat.lt_succ_self _)
        | cons letter p =>
            have hless : p.length < (ch :: letter :: p).length := by
              rw [List.length_cons, List.length_cons]
              omega
            dsimp only
            by_cases hu : letter = 0x75
            · rw [if_pos hu]
              exact copyUnit_safe hroomy hless
            · rw [if_neg hu]
              exact copyChar_safe _ hroomy hless
      · rw [if_neg hslash]
        exact copyChar_safe ch hroomy (Nat.lt_succ_self _)

theorem skipQuote_length (p : Bytes) : (skipQuote p).length ≤ p.length := by
  cases p with
  | nil => exact Nat.le_refl 0
  | cons c p =>
      rw [skipQuote]
      split
      · exact Nat.le_succ _
      · exact Nat.le_refl _

/-- A string is copied into any buffer that has a cell for the terminator. -/
theorem copyString_safe (p : Bytes) (hcap : 0 < cap) : ∃ out, copyString p cap = .ok out ∧ Roomy out := by
  have hfresh : Roomy (.fresh cap : Buffer UInt8) := hcap
  have hlen := skipQuote_length p
  unfold copyString
  rw [if_neg (Nat.ne_of_gt hcap), Buffer.terminate_ok hfresh]
  exact Lib.loop_total copyTurn_safe (p.length + 1) hfresh (Nat.lt_succ_of_le hlen)

theorem literalEnd_lt (hcap : n < cap) : literalEnd cap p n < cap := by
  induction p generalizing n with
  | nil => exact hcap
  | cons c p ih =>
      unfold literalEnd
      split
      next hgo => exact ih hgo.2.2.2
      next => exact hcap

theorem trimEnd_le (p : Bytes) (n : Nat) : trimEnd p n ≤ n := by
  induction n with
  | zero => exact Nat.le_refl 0
  | succ n ih =>
      unfold trimEnd
      split
      · exact Nat.le_succ_of_le ih
      · exact Nat.le_refl _

/-- The bytes of a literal that are copied. -/
def literalBytes (cap : Nat) (p : Bytes) : Bytes := p.take (trimEnd p (literalEnd cap p 0))

/-- A value that is no string is copied to where it ends, or as far as there is room. -/
theorem copyLiteral_ok (hcap : 0 < cap) (hstring : (skipBlanks after).head? ≠ some doubleQuote) :
    ∃ out, copyValue after cap = .ok out ∧ out.text = literalBytes cap (skipBlanks after) := by
  have hend := @literalEnd_lt (skipBlanks after) cap 0 hcap
  have htrim := trimEnd_le (skipBlanks after) (literalEnd cap (skipBlanks after) 0)
  have hroom : (.fresh cap : Buffer UInt8).text.length + (literalBytes cap (skipBlanks after)).length <
      (.fresh cap : Buffer UInt8).cap := by
    rw [literalBytes, List.length_take, Buffer.fresh_text, Buffer.fresh_cap, List.length_nil]
    omega
  obtain ⟨out, hput, hterminate, hext, -⟩ := putAll_terminate _ hroom
  refine ⟨out, ?_, hext.text⟩
  unfold copyValue
  dsimp only
  rw [if_neg hstring]
  show (Buffer.putAll _ (literalBytes cap (skipBlanks after)) _ >>= _) = _
  rw [hput]
  exact hterminate

theorem copyValue_string (h : (skipBlanks after).head? = some doubleQuote) :
    copyValue after cap = copyString (skipBlanks after) cap := if_pos h

theorem copyValue_safe (after : Bytes) (hcap : 0 < cap) : ∃ out, copyValue after cap = .ok out := by
  by_cases hstring : (skipBlanks after).head? = some doubleQuote
  · obtain ⟨out, hcopy, -⟩ := copyString_safe (skipBlanks after) hcap
    rw [copyValue_string hstring]
    exact ⟨out, hcopy⟩
  · obtain ⟨out, hcopy, -⟩ := copyLiteral_ok hcap hstring
    exact ⟨out, hcopy⟩

theorem scanString_length (escaped : Bool) (p : Bytes) : (scanString escaped p).length ≤ p.length := by
  induction p generalizing escaped with
  | nil => exact Nat.le_refl 0
  | cons c p ih =>
      cases escaped with
      | true => exact Nat.le_succ_of_le (ih false)
      | false =>
          unfold scanString
          split
          · exact Nat.le_succ_of_le (ih true)
          · split
            · exact Nat.le_refl _
            · exact Nat.le_succ_of_le (ih false)

/-- A turn of the scan gets closer to the end of the text. -/
abbrev ScanAdvances (s : Bytes × Int) (turn : Turn (Bytes × Int) (Buffer UInt8)) : Prop :=
  Lib.Advances (fun _ => True) (fun _ => True) (fun s => s.1.length) s turn

theorem stringTurn_safe (hcap : 0 < cap) (quote : UInt8) :
    ∃ turn, stringTurn key wanted cap quote start found = .ok turn ∧ ScanAdvances (quote :: start, found) turn := by
  have hlen := scanString_length false start
  unfold stringTurn
  cases hscan : scanString false start with
  | nil => exact ⟨.done _, rfl, trivial⟩
  | cons c behind =>
      rw [hscan, List.length_cons] at hlen
      have hless : behind.length < (quote :: start).length := by
        rw [List.length_cons]
        omega
      dsimp only
      cases behindColon behind with
      | none => exact ⟨.next (behind, found), rfl, trivial, hless⟩
      | some value =>
          obtain ⟨decodedKey, hkey, -⟩ :=
            copyString_safe (quote :: start) (Nat.succ_pos (start.length - (behind.length + 1)))
          dsimp only
          rw [hkey]
          show ∃ turn, (if cString decodedKey.text = key then _ else _) = _ ∧ _
          by_cases hmatch : cString decodedKey.text = key
          · rw [if_pos hmatch]
            by_cases hfound : found = wanted
            · rw [if_pos hfound]
              obtain ⟨out, hcopy⟩ := copyValue_safe value hcap
              rw [hcopy]
              exact ⟨.done out, rfl, trivial⟩
            · rw [if_neg hfound]
              exact ⟨.next (behind, found + 1), rfl, trivial, hless⟩
          · rw [if_neg hmatch]
            exact ⟨.next (behind, found), rfl, trivial, hless⟩

theorem extractTurn_safe (hcap : 0 < cap) (s : Bytes × Int) :
    ∃ turn, extractTurn key wanted cap s = .ok turn ∧ ScanAdvances s turn := by
  obtain ⟨p, found⟩ := s
  cases p with
  | nil => exact ⟨.done _, rfl, trivial⟩
  | cons c start =>
      unfold extractTurn
      dsimp only
      by_cases hquote : c ≠ doubleQuote
      · rw [if_pos hquote]
        exact ⟨.next (start, found), rfl, trivial, Nat.lt_succ_self _⟩
      · rw [if_neg hquote]
        exact stringTurn_safe hcap c

/-- Whatever the text: no write goes past the result buffer or a key buffer. -/
theorem jsonValueAt_safe (json key : CString) (index : Int) : ∃ out, jsonValueAt json key index = .ok out := by
  have hcap : 0 < json.bytes.length + 1 := Nat.succ_pos _
  unfold jsonValueAt extractValue
  rw [Buffer.terminate_ok (by exact hcap)]
  show ∃ out, ((if index < 0 ∨ json.bytes.length + 1 < 2 then _ else _) >>= _) = _
  by_cases hshort : index < 0 ∨ json.bytes.length + 1 < 2
  · rw [if_pos hshort]
    exact ⟨_, rfl⟩
  · rw [if_neg hshort]
    obtain ⟨out, hloop, -⟩ := @Lib.loop_total _ _ _ JsonError.outOfClock
      (extractTurn key.bytes index (json.bytes.length + 1)) _ _ _ (fun s _ => extractTurn_safe hcap s)
      (json.bytes.length + 1) (json.bytes, 0) trivial (Nat.lt_succ_self _)
    rw [hloop]
    exact ⟨_, rfl⟩

end Vnt.Runtime
