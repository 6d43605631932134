import Mathlib.Data.List.Basic

/-!
# `Front.Chars` — the character classes of `ctype.h`

The loader and the lexer read characters through the C locale: only ASCII letters and digits count.
-/

namespace Vnt

/-- `isspace`. -/
def isSpace (c : Char) : Bool :=
  c = ' ' || c = '\t' || c = '\n' || c = '\x0b' || c = '\x0c' || c = '\r'

/-- `isdigit`. -/
def isDigit (c : Char) : Bool := '0' ≤ c && c ≤ '9'

/-- `isxdigit`. -/
def isXDigit (c : Char) : Bool := isDigit c || ('a' ≤ c && c ≤ 'f') || ('A' ≤ c && c ≤ 'F')

/-- `isalpha(c) || c == '_'`. -/
def isNameStart (c : Char) : Bool := ('a' ≤ c && c ≤ 'z') || ('A' ≤ c && c ≤ 'Z') || c = '_'

/-- `isalnum(c) || c == '_'`. -/
def isNameChar (c : Char) : Bool := isNameStart c || isDigit c

end Vnt
