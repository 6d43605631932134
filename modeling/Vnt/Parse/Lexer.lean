import Vnt.Front.Chars
import Vnt.Lib.Prog

/-!
# `Parse.Lexer` — the lexer

The lexer walks over a NUL-terminated buffer with an index. A `Source` is the text before the terminator, so it
holds no NUL; reading at its length gives the terminator and reading behind that is the fault `outOfBounds`. The
loops run with fuel taken from the length of the text.
-/

namespace Vnt.Parse

open Lib

/-- What a run of the front end must never do: read behind the terminator, or not come to an end. -/
inductive Fault where
  | outOfBounds
  | unfinished
  deriving DecidableEq, Repr

/-- The terminating character. -/
def nul : Char := '\x00'

/-- The text of a NUL-terminated source, without its terminator. -/
structure Source where
  chars : List Char
  noNul : nul ∉ chars

inductive TokenType where
  | eof
  | identifier | string | integer | float
  | leftParen | rightParen | comma | colon | dot | ampersand
  | leftBrace | rightBrace
  | leftBracket | rightBracket
  | equals | plusEquals | minusEquals | starEquals | slashEquals | percentEquals
  | equalEqual | bang | bangEqual
  | greater | less | greaterEqual | lessEqual
  | plus | minus | star | slash | percent
  | andAnd | orOr
  | unknown
  deriving DecidableEq, Repr

/-- `Token`: `start` and `length` are known by the text they delimit. -/
structure Token where
  type : TokenType
  text : List Char
  line : Nat
  column : Nat
  deriving DecidableEq, Repr

structure Lexer where
  source : Source
  current : Nat
  line : Nat
  column : Nat
  tokenStartLine : Nat
  tokenStartColumn : Nat

abbrev Lex := Prog Lexer Fault

/-! ## Reading -/

/-- `lexer->source[i]`. -/
def Lexer.read (lx : Lexer) (i : Nat) : Except Fault Char :=
  match lx.source.chars[i]? with
  | some c => .ok c
  | none => if i = lx.source.chars.length then .ok nul else .error .outOfBounds

def peek : Lex Char := fun lx => (lx.read lx.current).map fun c => (c, lx)

/-- `lexer->source[lexer->current + 1]`. -/
def peekNext : Lex Char := fun lx => (lx.read (lx.current + 1)).map fun c => (c, lx)

/-- The position after the character `c`. -/
def Lexer.step (lx : Lexer) (c : Char) : Lexer :=
  if c = '\n' then { lx with current := lx.current + 1, line := lx.line + 1, column := 1 }
  else if c ≠ nul then { lx with current := lx.current + 1, column := lx.column + 1 }
  else { lx with current := lx.current + 1 }

def advance : Lex Char := fun lx => (lx.read lx.current).map fun c => (c, lx.step c)

/-- `while (test(peek(lexer))) advance(lexer)`. -/
def advanceWhile (test : Char → Bool) : Nat → Lex Unit
  | 0 => Prog.fault .unfinished
  | n + 1 => do
      if test (← peek) then
        let _ ← advance
        advanceWhile test n
      else pure ()

/-- `skip_whitespace`, comments included. -/
def skipWhitespace : Nat → Lex Unit
  | 0 => Prog.fault .unfinished
  | n + 1 => do
      let c ← peek
      if isSpace c then
        let _ ← advance
        skipWhitespace n
      else if c = '#' then
        advanceWhile (fun c => c ≠ nul && c ≠ '\n') (n + 1)
        skipWhitespace n
      else pure ()

/-! ## Tokens -/

/-- `make_token`: the text from `start` to the current position, at the place where the token began. -/
def makeToken (type : TokenType) (start : Nat) : Lex Token := do
  let lx ← Prog.get
  pure ⟨type, (lx.source.chars.drop start).take (lx.current - start), lx.tokenStartLine, lx.tokenStartColumn⟩

def identifier (n start : Nat) : Lex Token := do
  advanceWhile isNameChar n
  makeToken .identifier start

/-- `peek(lexer) == '.' && isdigit(lexer->source[lexer->current + 1])`. -/
def fractionFollows : Lex Bool := do
  if (← peek) = '.' then return isDigit (← peekNext)
  return false

/-- `number`, after its first digit `first`. -/
def number (n : Nat) (first : Char) (start : Nat) : Lex Token := do
  let c ← peek
  if first = '0' && (c = 'x' || c = 'X') then
    let _ ← advance
    advanceWhile isXDigit n
    return ← makeToken .integer start
  advanceWhile isDigit n
  if ← fractionFollows then
    let _ ← advance
    advanceWhile isDigit n
    return ← makeToken .float start
  makeToken .integer start

/-- The loop of `string`. An escaped character is passed over, unless it is the terminator. -/
def stringBody : Nat → Lex Unit
  | 0 => Prog.fault .unfinished
  | n + 1 => do
      let c ← peek
      if c ≠ '"' && c ≠ nul then
        if c = '\\' then
          let _ ← advance
          if (← peek) = nul then return ()
          let _ ← advance
          stringBody n
        else
          let _ ← advance
          stringBody n
      else pure ()

/-- `string`: the token keeps what stands between the quotes. -/
def string (n start : Nat) : Lex Token := do
  stringBody n
  if (← peek) = nul then
    return ← makeToken .unknown start
  let _ ← advance
  let token ← makeToken .string start
  pure { token with text := token.text.tail.dropLast }

/-- A token of one character, or of two when `second` follows. -/
def pairToken (second : Char) (pair single : TokenType) (start : Nat) : Lex Token := do
  if (← peek) = second then
    let _ ← advance
    return ← makeToken pair start
  makeToken single start

/-- The `switch` of `lexer_next`. -/
def symbol (c : Char) (start : Nat) : Lex Token :=
  match c with
  | '(' => makeToken .leftParen start
  | ')' => makeToken .rightParen start
  | '{' => makeToken .leftBrace start
  | '}' => makeToken .rightBrace start
  | '[' => makeToken .leftBracket start
  | ']' => makeToken .rightBracket start
  | ',' => makeToken .comma start
  | ':' => makeToken .colon start
  | '.' => makeToken .dot start
  | '=' => pairToken '=' .equalEqual .equals start
  | '!' => pairToken '=' .bangEqual .bang start
  | '>' => pairToken '=' .greaterEqual .greater start
  | '<' => pairToken '=' .lessEqual .less start
  | '+' => pairToken '=' .plusEquals .plus start
  | '-' => pairToken '=' .minusEquals .minus start
  | '*' => pairToken '=' .starEquals .star start
  | '/' => pairToken '=' .slashEquals .slash start
  | '%' => pairToken '=' .percentEquals .percent start
  | '&' => pairToken '&' .andAnd .ampersand start
  | '|' => pairToken '|' .orOr .unknown start
  | _ => makeToken .unknown start

def lexerInit (source : Source) : Lexer := ⟨source, 0, 1, 1, 1, 1⟩

/-- The token that begins at `start`, the current position. -/
def scanToken (n start : Nat) : Lex Token := do
  let c ← advance
  if c = nul then
    return ← makeToken .eof start
  if isNameStart c then
    return ← identifier n start
  if isDigit c then
    return ← number n c start
  if c = '"' then
    return ← string n start
  symbol c start

/-- Note where a token begins. -/
def Lexer.markStart (lx : Lexer) : Lexer := { lx with tokenStartLine := lx.line, tokenStartColumn := lx.column }

def lexerNext : Lex Token := do
  let n := (← Prog.get).source.chars.length + 2
  skipWhitespace n
  Prog.modify Lexer.markStart
  scanToken n (← Prog.get).current

end Vnt.Parse
