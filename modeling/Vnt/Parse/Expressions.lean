import Mathlib.Algebra.Group.Nat.Defs
import Vnt.Front.Ast
import Vnt.Parse.Lexer

/-!
# `Parse.Expressions` — the state of the parser and its primitives

The parser holds one token of lookahead. Its two limits are counters: `nestingDepth` for statements, expressions
and unary operators that are open, `expressionOperatorCount` for the operators of the outermost expression;
`nestingFailed` latches when one of them is exceeded. A parse function returns `AstNode.null` for `NULL`.

The counter of the `for` loops is a static variable of the C file; here it is part of the state. What the parser
prints is collected in `diagnostics`.
-/

namespace Vnt.Parse

open Lib

def vntParserMaxNesting : Nat := 256

def vntParserMaxExpressionOperators : Nat := 256

structure Parser where
  lexer : Lexer
  current : Token
  previous : Token
  nestingDepth : Nat
  nestingFailed : Bool
  expressionDepth : Nat
  expressionOperatorCount : Nat
  forCounter : Nat
  diagnostics : List String

abbrev ParserM := Prog Parser Fault

/-- `node == NULL`. -/
def isNull : AstNode → Bool
  | .null => true
  | _ => false

/-! ## Errors -/

/-- Print `Parser error: …`. -/
def parserError (message : String) : ParserM Unit :=
  Prog.modify fun p => { p with diagnostics := p.diagnostics ++ ["Parser error: " ++ message] }

/-- Print `Parser error at line:column: …`. -/
def parserErrorAt (message : String) : ParserM Unit :=
  Prog.modify fun p => { p with
    diagnostics := p.diagnostics ++
      [s!"Parser error at {p.current.line}:{p.current.column}: " ++ message] }

/-! ## Limits -/

def parserEnterNesting (context : String) : ParserM Bool := do
  let p ← Prog.get
  if p.nestingFailed then return false
  if p.nestingDepth ≥ vntParserMaxNesting then
    Prog.modify fun p => { p with nestingFailed := true }
    parserErrorAt (context ++ s!" nesting exceeds {vntParserMaxNesting} levels.")
    return false
  Prog.modify fun p => { p with nestingDepth := p.nestingDepth + 1 }
  return true

def parserLeaveNesting : ParserM Unit :=
  Prog.modify fun p => { p with nestingDepth := p.nestingDepth - 1 }

def parserNoteExpressionOperator : ParserM Bool := do
  let p ← Prog.get
  if p.nestingFailed then return false
  if p.expressionOperatorCount ≥ vntParserMaxExpressionOperators then
    Prog.modify fun p => { p with nestingFailed := true }
    parserErrorAt s!"expression exceeds {vntParserMaxExpressionOperators} operator nodes."
    return false
  Prog.modify fun p => { p with expressionOperatorCount := p.expressionOperatorCount + 1 }
  return true

/-! ## Tokens -/

def parserAdvance : ParserM Unit := fun p =>
  match lexerNext p.lexer with
  | .ok (token, lexer) => .ok ((), { p with previous := p.current, current := token, lexer })
  | .error e => .error e

def parserCheck (type : TokenType) : ParserM Bool := fun p => .ok (p.current.type = type, p)

def parserConsume (type : TokenType) (message : String) : ParserM Bool := do
  if ← parserCheck type then
    parserAdvance
    return true
  parserErrorAt message
  return false

def parserTokenToString (token : Token) : String := String.ofList token.text

def parserIsToken (token : Token) (text : String) : Bool := token.type = .identifier && token.text = text.toList

/-- `parser_is_token(parser->current, text)`. -/
def currentIs (text : String) : ParserM Bool := fun p => .ok (parserIsToken p.current text, p)

/-- `parser->current`. -/
def currentToken : ParserM Token := fun p => .ok (p.current, p)

/-- `parser->previous`. -/
def previousToken : ParserM Token := fun p => .ok (p.previous, p)

def noToken : Token := ⟨.unknown, [], 0, 0⟩

/-- `parser_init` on a fresh lexer. -/
def parserInit (source : Source) (forCounter : Nat) : Except Fault Parser :=
  (parserAdvance ⟨lexerInit source, noToken, noToken, 0, false, 0, 0, forCounter, []⟩).map (·.2)

/-!
## The expression parser

Recursive descent with one function for each level. The functions call each other in a circle through
`parse_expression`; here each takes that function as its argument `expr` and the fuel `n` for its own loop, and
`parseExpression` ties the knot. `strtod` is the C library's.
-/

/-! ## Literals -/

def hexValue (c : Char) : Nat :=
  if isDigit c then c.toNat - '0'.toNat
  else if 'a' ≤ c && c ≤ 'f' then c.toNat - 'a'.toNat + 10
  else c.toNat - 'A'.toNat + 10

/-- The number a string of digits spells, as `strtoull` reads it: `none` when it does not read the whole text. -/
def digitsValue (base : Nat) (valid : Char → Bool) (digits : List Char) : Option Nat :=
  if digits ≠ [] ∧ digits.all valid then some (digits.foldl (fun v c => v * base + hexValue c) 0) else none

/-- The magnitude of an integer token: hexadecimal after `0x`, else decimal. -/
def magnitude (text : List Char) : Option Nat :=
  match text with
  | '0' :: 'x' :: digits => digitsValue 16 isXDigit digits
  | '0' :: 'X' :: digits => digitsValue 16 isXDigit digits
  | digits => digitsValue 10 isDigit digits

/-- Decode the escapes of a string token; an unknown escape stays as it is. -/
def decodeEscapes : List Char → List Char
  | '\\' :: e :: cs =>
      match e with
      | 'n' => '\n' :: decodeEscapes cs
      | 'r' => '\r' :: decodeEscapes cs
      | 't' => '\t' :: decodeEscapes cs
      | '\\' => '\\' :: decodeEscapes cs
      | '"' => '"' :: decodeEscapes cs
      | e => '\\' :: e :: decodeEscapes cs
  | c :: cs => c :: decodeEscapes cs
  | [] => []

/-! ## Arguments and elements -/

/-- The items of a list that may close at once. -/
def unlessClosed {α : Type} (close : TokenType) (empty : α) (items : ParserM (Option α)) : ParserM (Option α) := do
  if ← parserCheck close then return some empty
  items

/-- The loop over the elements of an array literal; a trailing comma is allowed. -/
def parseElements (expr : ParserM AstNode) : Nat → AstNode → ParserM (Option AstNode)
  | 0, _ => Prog.fault .unfinished
  | n + 1, elements => do
      let element ← expr
      if isNull element then return none
      let elements := elements.append element
      unless ← parserCheck .comma do return some elements
      parserAdvance
      if ← parserCheck .rightBracket then return some elements
      parseElements expr n elements

/-- The loop over the arguments of a call inside an expression. -/
def parseCallArguments (expr : ParserM AstNode) : Nat → AstNode → ParserM (Option AstNode)
  | 0, _ => Prog.fault .unfinished
  | n + 1, arguments => do
      let argument ← expr
      if isNull argument then return none
      let arguments := arguments.append argument
      unless ← parserCheck .comma do return some arguments
      parserAdvance
      if ← parserCheck .rightParen then
        parserError "trailing comma in function call."
        return none
      parseCallArguments expr n arguments

/-- The loop over the arguments of a call statement and of a module-qualified call. -/
def parseArguments (expr : ParserM AstNode) : Nat → AstNode → ParserM (Option AstNode)
  | 0, _ => Prog.fault .unfinished
  | n + 1, arguments => do
      let argument ← expr
      if isNull argument then return none
      let arguments := arguments.append argument
      if ← parserCheck .rightParen then return some arguments
      unless ← parserConsume .comma "expected ',' between arguments." do return none
      parseArguments expr n arguments

/-- A call of `name` after its opening parenthesis. -/
def finishCall (expr : ParserM AstNode) (n : Nat) (name : String) : ParserM AstNode := do
  let arguments ← unlessClosed .rightParen .null (parseArguments expr n .null)
  match arguments with
  | none => return .null
  | some arguments =>
      unless ← parserConsume .rightParen "expected ')' after arguments." do return .null
      return .one (.functionCall name) arguments .null

/-! ## Primary expressions -/

def parseInteger (token : Token) : ParserM AstNode := do
  if token.text.length ≥ 64 then
    parserError "integer too long."
    return .null
  match magnitude token.text with
  | some value =>
      if value < 2 ^ 63 then
        parserAdvance
        return .leaf (.integerLiteral (Int64.ofNat value)) .null
      else
        parserError "integer literal is outside the signed 64-bit range."
        return .null
  | none =>
      parserError "integer literal is outside the signed 64-bit range."
      return .null

def parseFloat (strtod : List Char → Double) (token : Token) : ParserM AstNode := do
  if token.text.length ≥ 64 then
    parserError "float too long."
    return .null
  parserAdvance
  return .leaf (.floatLiteral (strtod token.text)) .null

def parseArray (expr : ParserM AstNode) (n : Nat) : ParserM AstNode := do
  parserAdvance
  let elements ← unlessClosed .rightBracket .null (parseElements expr n .null)
  match elements with
  | none => return .null
  | some elements =>
      unless ← parserCheck .rightBracket do
        parserError "expected ']'."
        return .null
      parserAdvance
      return .one .arrayLiteral elements .null

def parseParenthesized (expr : ParserM AstNode) : ParserM AstNode := do
  parserAdvance
  let expression ← expr
  if isNull expression then return .null
  unless ← parserCheck .rightParen do
    parserError "expected ')'."
    return .null
  parserAdvance
  return expression

/-- What a name that is not called stands for. -/
def nameNode (name : String) : AstNode :=
  if name = "true" then .leaf (.booleanLiteral true) .null
  else if name = "false" then .leaf (.booleanLiteral false) .null
  else if name = "null" then .leaf .nullLiteral .null
  else .leaf (.variable name) .null

def parseName (expr : ParserM AstNode) (n : Nat) (token : Token) : ParserM AstNode := do
  let name := parserTokenToString token
  parserAdvance
  unless ← parserCheck .leftParen do return nameNode name
  parserAdvance
  let arguments ← unlessClosed .rightParen .null (parseCallArguments expr n .null)
  match arguments with
  | none => return .null
  | some arguments =>
      unless ← parserCheck .rightParen do
        parserError "expected ')'."
        return .null
      parserAdvance
      return .one (.functionCall name) arguments .null

def parsePrimary (strtod : List Char → Double) (expr : ParserM AstNode) (n : Nat) : ParserM AstNode := do
  let token ← currentToken
  match token.type with
  | .integer => parseInteger token
  | .float => parseFloat strtod token
  | .string =>
      parserAdvance
      return .leaf (.stringLiteral (String.ofList (decodeEscapes token.text))) .null
  | .leftBracket => parseArray expr n
  | .leftParen => parseParenthesized expr
  | .identifier => parseName expr n token
  | _ =>
      parserError "expected expression."
      return .null

/-! ## Postfix and unary operators -/

/-- The name of a module-qualified function, when `object` is a plain name. -/
def qualifiedName (object : AstNode) (member : String) : Option String :=
  match object with
  | .leaf (.variable module) .null => some (module ++ "__" ++ member)
  | _ => none

/-- The loop of `parse_postfix`. -/
def postfixSteps (expr : ParserM AstNode) : Nat → AstNode → ParserM AstNode
  | 0, _ => Prog.fault .unfinished
  | n + 1, expression => do
      if ← parserCheck .leftBracket then
        unless ← parserNoteExpressionOperator do return .null
        parserAdvance
        let index ← expr
        if isNull index then return .null
        unless ← parserCheck .rightBracket do
          parserError "expected ']'."
          return .null
        parserAdvance
        postfixSteps expr n (.two .indexExpression expression index .null)
      else if ← parserCheck .dot then
        unless ← parserNoteExpressionOperator do return .null
        parserAdvance
        unless ← parserCheck .identifier do
          parserError "expected member name after '.'."
          return .null
        let member := parserTokenToString (← currentToken)
        parserAdvance
        let called ← parserCheck .leftParen
        match called, qualifiedName expression member with
        | true, some qualified =>
            parserAdvance
            let call ← finishCall expr n qualified
            if isNull call then return .null
            postfixSteps expr n call
        | _, _ => postfixSteps expr n (.one (.memberExpression member) expression .null)
      else return expression

def parsePostfix (strtod : List Char → Double) (expr : ParserM AstNode) (n : Nat) : ParserM AstNode := do
  let expression ← parsePrimary strtod expr n
  if isNull expression then return .null
  postfixSteps expr n expression

def unaryOperator : TokenType → Option UnaryOperator
  | .bang => some .not
  | .minus => some .negate
  | .ampersand => some .reference
  | .star => some .dereference
  | _ => none

/-- The digits after a minus sign spell 2^63, whose negative is a literal although it is none itself. -/
def isMinMagnitude (token : Token) : Bool :=
  token.type = .integer && 0 < token.text.length && token.text.length < 64 && magnitude token.text = some (2 ^ 63)

/-- `parse_unary`. -/
def parseUnary (strtod : List Char → Double) (expr : ParserM AstNode) : Nat → ParserM AstNode
  | 0 => Prog.fault .unfinished
  | n + 1 => do
      match unaryOperator (← currentToken).type with
      | none => parsePostfix strtod expr n
      | some operator =>
          unless ← parserEnterNesting "unary operator" do return .null
          parserAdvance
          if operator = .negate && isMinMagnitude (← currentToken) then
            parserAdvance
            parserLeaveNesting
            return .leaf (.integerLiteral Int64.minValue) .null
          let operand ← parseUnary strtod expr n
          parserLeaveNesting
          if isNull operand then return .null
          return .one (.unaryExpression operator) operand .null

/-! ## Binary operators -/

/-- The loop of a binary level: `operators` are its tokens, `operand` parses the next higher level. -/
def binarySteps (operators : TokenType → Option BinaryOperator) (operand : ParserM AstNode) :
    Nat → AstNode → ParserM AstNode
  | 0, _ => Prog.fault .unfinished
  | n + 1, left => do
      match operators (← currentToken).type with
      | none => return left
      | some operator =>
          parserAdvance
          unless ← parserNoteExpressionOperator do return .null
          let right ← operand
          if isNull right then return .null
          binarySteps operators operand n (.two (.binaryExpression operator) left right .null)

/-- A left-associative binary level. -/
def parseBinary (operators : TokenType → Option BinaryOperator) (operand : ParserM AstNode) (n : Nat) :
    ParserM AstNode := do
  let left ← operand
  if isNull left then return .null
  binarySteps operators operand n left

def multiplicationOperator : TokenType → Option BinaryOperator
  | .star => some .multiply
  | .slash => some .divide
  | .percent => some .modulo
  | _ => none

def additionOperator : TokenType → Option BinaryOperator
  | .plus => some .add
  | .minus => some .subtract
  | _ => none

def comparisonOperator : TokenType → Option BinaryOperator
  | .greater => some .greater
  | .less => some .less
  | .greaterEqual => some .greaterEqual
  | .lessEqual => some .lessEqual
  | _ => none

def equalityOperator : TokenType → Option BinaryOperator
  | .equalEqual => some .equal
  | .bangEqual => some .notEqual
  | _ => none

def andOperator : TokenType → Option BinaryOperator
  | .andAnd => some .and
  | _ => none

def orOperator : TokenType → Option BinaryOperator
  | .orOr => some .or
  | _ => none

section

variable (strtod : List Char → Double) (expr : ParserM AstNode) (n : Nat)

def parseMultiplication : ParserM AstNode := parseBinary multiplicationOperator (parseUnary strtod expr n) n

def parseAddition : ParserM AstNode := parseBinary additionOperator (parseMultiplication strtod expr n) n

def parseComparison : ParserM AstNode := parseBinary comparisonOperator (parseAddition strtod expr n) n

def parseEquality : ParserM AstNode := parseBinary equalityOperator (parseComparison strtod expr n) n

def parseAnd : ParserM AstNode := parseBinary andOperator (parseEquality strtod expr n) n

def parseOr : ParserM AstNode := parseBinary orOperator (parseAnd strtod expr n) n

end

def parseExpression (strtod : List Char → Double) : Nat → ParserM AstNode
  | 0 => Prog.fault .unfinished
  | n + 1 => do
      Prog.modify fun p => if p.expressionDepth = 0 then { p with expressionOperatorCount := 0 } else p
      unless ← parserEnterNesting "expression" do return .null
      Prog.modify fun p => { p with expressionDepth := p.expressionDepth + 1 }
      let expression ← parseOr strtod (parseExpression strtod n) n
      Prog.modify fun p => { p with expressionDepth := p.expressionDepth - 1 }
      parserLeaveNesting
      if (← Prog.get).nestingFailed then return .null
      return expression

end Vnt.Parse
