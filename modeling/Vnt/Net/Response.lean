import Vnt.Net.Chunked

/-!
# `Vnt.Net.Response`: the header block of a response (`native_net.c`)

`parse_response_headers` cuts the block at CRLF, `http_header_has_token` at LF. Both read the same buffer; a text ends at
the first zero.
-/

namespace Vnt.Net

def comma : UInt8 := 44

/-- A blank inside a line. -/
def blank (c : UInt8) : Bool := c = space ∨ c = tab

/-- `isspace`. -/
def isSpace (c : UInt8) : Bool := c = space ∨ (9 ≤ c ∧ c ≤ 13)

/-- A decimal digit. -/
def isDigit (c : UInt8) : Bool := 48 ≤ c ∧ c ≤ 57

/-- The number that digits stand for. -/
def digitsValue (digits : Bytes) : Nat := digits.foldl (fun n c => 10 * n + (c.toNat - 48)) 0

/-- The text that begins where the buffer does. -/
def cString (raw : Bytes) : Bytes := raw.takeWhile (· ≠ 0)

/-! ## `sscanf(raw, "HTTP/%*u.%*u %d", &code)` -/

/-- A literal of the format. -/
def scanLiteral (literal text : Bytes) : Option Bytes :=
  if literal.isPrefixOf text then some (text.drop literal.length) else none

/-- The digits behind the sign: their value and the rest. -/
def scanDigits (negative : Bool) (text : Bytes) : Option (Int × Bytes) :=
  let digits := text.takeWhile isDigit
  if digits = [] then none
  else some (if negative then -(digitsValue digits : Int) else digitsValue digits, text.drop digits.length)

/-- `%u` and `%d`: white space, a sign, digits. -/
def scanInt (text : Bytes) : Option (Int × Bytes) :=
  match text.dropWhile isSpace with
  | 43 :: rest => scanDigits false rest
  | 45 :: rest => scanDigits true rest
  | rest => scanDigits false rest

/-- What `%d` stores: the number is read as a `long` and kept in an `int`. -/
def storedInt (value : Int) : Int := Int.bmod (max (-2 ^ 63) (min value (2 ^ 63 - 1))) (2 ^ 32)

def scanStatus (text : Bytes) : Option Int := do
  let text ← scanLiteral (ascii "HTTP/") text
  let (_, text) ← scanInt text
  let text ← scanLiteral (ascii ".") text
  let (_, text) ← scanInt text
  let (code, _) ← scanInt (text.dropWhile isSpace)
  some (storedInt code)

/-! ## Tokens in a field value -/

/-- The loop of `http_value_has_token`; each turn takes at least one byte. -/
def valueHasTokenLoop (token : Bytes) : Nat → Bytes → Bool
  | 0, _ => false
  | fuel + 1, value =>
      if value = [] then false
      else
        let p := value.dropWhile fun c => blank c ∨ c = comma
        let item := p.takeWhile (· ≠ comma)
        if sameFold (item.rdropWhile blank) token then true
        else valueHasTokenLoop token fuel (p.drop (item.length + 1))

/-- `http_value_has_token`. -/
def httpValueHasToken (value token : Bytes) : Bool := valueHasTokenLoop token (value.length + 1) value

/-- The lines of a block that have an LF at their end, without it. -/
def endedLines : Bytes → List Bytes
  | [] => []
  | c :: rest =>
      if c = lf then [] :: endedLines rest
      else
        match endedLines rest with
        | [] => []
        | line :: more => (c :: line) :: more

/-- A line that is a field of the name with the token in its value. -/
def fieldHasToken (name token line : Bytes) : Bool :=
  match splitColon line with
  | none => false
  | some (found, value) => sameFold found name && httpValueHasToken value token

/-- `http_header_has_token` on the first `header_length` bytes; it stops at an empty line. -/
def httpHeaderHasToken (block name token : Bytes) : Bool :=
  (((endedLines block).map dropCr).takeWhile (· ≠ [])).any (fieldHasToken name token)

/-! ## `parse_response_headers` -/

/-- `content_len`, `has_len` and `transfer_chunked`. -/
structure HeaderScan where
  contentLength : Nat
  hasLength : Bool
  chunked : Bool
  deriving DecidableEq

/-- `strtoull`, which saturates. -/
def strtoull (digits : Bytes) : Nat := min (digitsValue digits) (2 ^ 64 - 1)

/-- The turn of the loop for a line; `none` is the return of -1. -/
def scanLine (scan : HeaderScan) (line : Bytes) : Option HeaderScan :=
  if line.length > 15 ∧ startsFold line (ascii "Content-Length:") then
    let value := (line.drop 15).dropWhile blank
    if value = [] then none
    else if (value.takeWhile fun c => ¬blank c).all isDigit = false then none
    else
      let digits := value.takeWhile isDigit
      if (value.drop digits.length).dropWhile blank ≠ [] then none
      else if scan.hasLength ∧ scan.contentLength ≠ strtoull digits then none
      else some { scan with contentLength := strtoull digits, hasLength := true }
  else if line.length > 18 ∧ startsFold line (ascii "Transfer-Encoding:") ∧
      httpValueHasToken (line.drop 18) (ascii "chunked") then
    some { scan with chunked := true }
  else some scan

/-- The lines up to each CRLF. -/
def crlfLines : Nat → Bytes → List Bytes
  | 0, _ => []
  | fuel + 1, bytes =>
      match splitCrlf bytes with
      | none => []
      | some (line, rest) => line :: crlfLines fuel rest

/-- The lines of a header block: the block with the CRLF of its last line, before the empty line. -/
def headerLines (block : Bytes) : List Bytes := crlfLines block.length block

/-- What `parse_response_headers` stores when it returns 1; `chunked` is its own variable. -/
structure Headers where
  headerLength : Nat
  contentLength : Nat
  hasContentLength : Bool
  statusCode : Int
  noBody : Bool
  chunked : Bool
  deriving DecidableEq

/-- The results 0, -1 and 1 of `parse_response_headers`. -/
inductive ParsedHeaders where
  | incomplete
  | malformed
  | accepted (headers : Headers)
  deriving DecidableEq

/-- No body behind the header block, whatever its fields say. -/
def responseNoBody (method : Option Bytes) (code : Int) : Bool :=
  (method.any fun m => sameFold m (ascii "HEAD")) ∨ (100 ≤ code ∧ code < 200) ∨ code = 204 ∨ code = 304

/-- `parse_response_headers`, on the bytes that have been received. -/
def parseResponseHeaders (raw : Bytes) (method : Option Bytes) : ParsedHeaders :=
  match strstr (crlf ++ crlf) (cString raw) with
  | none => .incomplete
  | some sep =>
      if sep + 4 > raw.length then .incomplete
      else
        match scanStatus (cString raw) with
        | none => .malformed
        | some code =>
            match (headerLines (raw.take (sep + 2))).foldlM scanLine ⟨0, false, false⟩ with
            | none => .malformed
            | some scan =>
                if scan.hasLength ∧ scan.chunked then .malformed
                else .accepted ⟨sep + 4, scan.contentLength, scan.hasLength, code, responseNoBody method code, scan.chunked⟩

end Vnt.Net
