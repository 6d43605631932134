import Vnt.Parse.Expressions

/-!
# `Parse.Statements` — the statement parser

`parse_block` returns `NULL` both for an empty block and after an error, and each caller decides by the next token
which of the two it takes it for. The functions take `stmt` and `expr`, the calls of `parse_statement` and
`parse_expression` they make, and the fuel `n` of their own loop; `parseStatement` ties the knot.
-/

namespace Vnt.Parse

open Lib

section

variable (stmt expr : ParserM AstNode)

/-- The loop of `parse_block`; the flag tells an early return from its regular end. -/
def blockSteps : Nat → AstNode → ParserM (Option AstNode)
  | 0, _ => Prog.fault .unfinished
  | n + 1, statements => do
      if ← parserCheck .rightBrace then return some statements
      if ← parserCheck .eof then return some statements
      let statement ← stmt
      if isNull statement then return none
      blockSteps n (statements.append statement)

def parseBlock (n : Nat) : ParserM AstNode := do
  match ← blockSteps stmt n .null with
  | none => return .null
  | some statements =>
      unless ← parserConsume .rightBrace "expected '\x7d'." do return .null
      return statements

/-! ## Simple statements -/

def parsePrint : ParserM AstNode := do
  parserAdvance
  unless ← parserConsume .leftParen "expected '('." do return .null
  let expression ← expr
  if isNull expression then return .null
  unless ← parserConsume .rightParen "expected ')'." do return .null
  return .one .printStatement expression .null

/-- `parse_return`: a value has to begin on the line of `return`. -/
def parseReturn : ParserM AstNode := do
  parserAdvance
  let current ← currentToken
  let previous ← previousToken
  if current.type = .rightBrace || current.type = .eof || current.line > previous.line then
    return .one .returnStatement .null .null
  let expression ← expr
  if isNull expression then
    parserErrorAt "expected expression after return."
    return .null
  return .one .returnStatement expression .null

def parseBreak : ParserM AstNode := do
  parserAdvance
  return .leaf .breakStatement .null

def parseContinue : ParserM AstNode := do
  parserAdvance
  return .leaf .continueStatement .null

def parseLetDeclaration : ParserM AstNode := do
  parserAdvance
  unless ← parserConsume .identifier "expected variable name after 'let'." do return .null
  let name := parserTokenToString (← previousToken)
  unless ← parserConsume .colon "expected ':' after typed variable name." do return .null
  unless ← parserConsume .identifier "expected type name after ':'." do return .null
  let type := parserTokenToString (← previousToken)
  unless ← parserConsume .equals "expected '=' after variable type." do return .null
  let value ← expr
  if isNull value then return .null
  return .one (.variableDeclaration name (some type) false) value .null

/-- `asm` with its optional `volatile`. -/
def parseVolatile : ParserM Bool := do
  if ← currentIs "volatile" then
    parserAdvance
    return true
  return false

def parseAsmStatement : ParserM AstNode := do
  parserAdvance
  let isVolatile ← parseVolatile
  unless ← parserConsume .leftParen "expected '(' after asm or asm volatile." do return .null
  unless ← parserConsume .string "expected an assembly template string." do return .null
  let assembly := parserTokenToString (← previousToken)
  unless ← parserConsume .rightParen "expected ')' after assembly template." do return .null
  return .leaf (.asmStatement assembly isVolatile) .null

/-! ## Functions and structs -/

/-- The optional annotation of a parameter; `none` when the type is missing. -/
def parseParameterType : ParserM (Option (Option String)) := do
  unless ← parserCheck .colon do return some none
  parserAdvance
  unless ← parserCheck .identifier do
    parserError "expected parameter type after ':'."
    return none
  let type := parserTokenToString (← currentToken)
  parserAdvance
  return some (some type)

/-- The loop over the parameters. -/
def parseParameters : Nat → List (String × Option String) → ParserM (Option (List (String × Option String)))
  | 0, _ => Prog.fault .unfinished
  | n + 1, parameters => do
      if ← parserCheck .rightParen then return some parameters
      unless ← parserCheck .identifier do
        parserErrorAt "expected parameter name."
        return none
      let name := parserTokenToString (← currentToken)
      parserAdvance
      match ← parseParameterType with
      | none => return none
      | some type =>
          let parameters := parameters ++ [(name, type)]
          if ← parserCheck .rightParen then return some parameters
          unless ← parserConsume .comma "expected ',' between parameters." do return none
          parseParameters n parameters

/-- The optional return type; `none` when it is malformed. -/
def parseReturnType : ParserM (Option (Option String)) := do
  unless ← parserCheck .minus do return some none
  parserAdvance
  unless ← parserConsume .greater "expected '>' after '-' in return type." do return none
  unless ← parserCheck .identifier do
    parserError "expected function return type."
    return none
  let type := parserTokenToString (← currentToken)
  parserAdvance
  return some (some type)

/-- `parse_function`; `isUnsafe` is the flag `parse_unsafe_block` sets on its result. -/
def parseFunction (isUnsafe : Bool) (n : Nat) : ParserM AstNode := do
  parserAdvance
  unless ← parserCheck .identifier do
    parserError "expected function name."
    return .null
  let name := parserTokenToString (← currentToken)
  parserAdvance
  unless ← parserConsume .leftParen "expected '(' after function name." do return .null
  match ← parseParameters n [] with
  | none => return .null
  | some parameters =>
      unless ← parserConsume .rightParen "expected ')' after parameters." do return .null
      match ← parseReturnType with
      | none => return .null
      | some returnType =>
          unless ← parserConsume .leftBrace "expected '\x7b' before function body." do return .null
          let body ← parseBlock stmt n
          let atEnd ← parserCheck .eof
          if isNull body && !atEnd then return .null
          return .one (.functionDeclaration ⟨name, parameters, returnType, isUnsafe⟩) body .null

/-- The loop over the fields of a struct. -/
def parseFields : Nat → List String → ParserM (Option (List String))
  | 0, _ => Prog.fault .unfinished
  | n + 1, fields => do
      unless ← parserCheck .identifier do
        parserError "expected struct field name."
        return none
      let field := parserTokenToString (← currentToken)
      parserAdvance
      let fields := fields ++ [field]
      if ← parserCheck .rightBrace then return some fields
      unless ← parserConsume .comma "expected ',' between struct fields." do return none
      parseFields n fields

def parseStruct (n : Nat) : ParserM AstNode := do
  parserAdvance
  unless ← parserCheck .identifier do
    parserError "expected struct name."
    return .null
  let name := parserTokenToString (← currentToken)
  parserAdvance
  unless ← parserConsume .leftBrace "expected '\x7b' after struct name." do return .null
  let fields ← unlessClosed .rightBrace [] (parseFields n [])
  match fields with
  | none => return .null
  | some fields =>
      unless ← parserConsume .rightBrace "expected '\x7d' after struct definition." do return .null
      return .leaf (.structDeclaration name fields) .null

def parseUnsafeBlock (n : Nat) : ParserM AstNode := do
  parserAdvance
  if ← currentIs "fun" then
    return ← parseFunction stmt true n
  unless ← parserConsume .leftBrace "expected '\x7b' or 'fun' after unsafe." do return .null
  let statements ← parseBlock stmt n
  let atEnd ← parserCheck .eof
  if isNull statements && atEnd then return .null
  return .one .unsafeBlock statements .null

def parseFunctionCall (name : String) (n : Nat) : ParserM AstNode := do
  unless ← parserConsume .leftParen "expected '(' after function name." do return .null
  finishCall expr n name

/-! ## Control flow -/

/-- The `else` of an `if`: `none` when the whole statement fails. -/
def parseElse (n : Nat) : ParserM (Option AstNode) := do
  unless ← currentIs "else" do return some .null
  parserAdvance
  if ← currentIs "if" then
    let elseBranch ← stmt
    if isNull elseBranch then return none
    return some elseBranch
  unless ← parserConsume .leftBrace "expected '\x7b' or 'if' after else." do return none
  let elseBranch ← parseBlock stmt n
  let atEnd ← parserCheck .eof
  if isNull elseBranch && !atEnd then return none
  return some elseBranch

def parseIf (n : Nat) : ParserM AstNode := do
  parserAdvance
  let condition ← expr
  if isNull condition then return .null
  unless ← parserConsume .leftBrace "expected '\x7b' after if condition." do return .null
  let thenBranch ← parseBlock stmt n
  let atBrace ← parserCheck .rightBrace
  let atEnd ← parserCheck .eof
  if isNull thenBranch && !atBrace && !atEnd then return .null
  match ← parseElse stmt n with
  | none => return .null
  | some elseBranch => return .ifStatement condition thenBranch elseBranch .null

def parseWhile (n : Nat) : ParserM AstNode := do
  parserAdvance
  let condition ← expr
  if isNull condition then return .null
  unless ← parserConsume .leftBrace "expected '\x7b' after while condition." do return .null
  let body ← parseBlock stmt n
  let atEnd ← parserCheck .eof
  if isNull body && !atEnd then return .null
  return .two .whileStatement condition body .null

/-- The statements a `for` loop stands for: `items = iterable`, `index = -1` and
    `while index + 1 < len(items) { index = index + 1; item = items[index]; body }`. -/
def forStatements (counter : Nat) (loopVariable : String) (iterable body : AstNode) : AstNode :=
  let itemsName := s!"__vnt_for_items_{counter}"
  let indexName := s!"__vnt_for_index_{counter}"
  let variableNode (name : String) : AstNode := .leaf (.variable name) .null
  let integerNode (value : Int64) : AstNode := .leaf (.integerLiteral value) .null
  let successor := AstNode.two (.binaryExpression .add) (variableNode indexName) (integerNode 1) .null
  let condition := AstNode.two (.binaryExpression .less) successor
    (.one (.functionCall "len") (variableNode itemsName) .null) .null
  let item := AstNode.two .indexExpression (variableNode itemsName) (variableNode indexName) .null
  let body := AstNode.one (.variableDeclaration indexName none false) successor
    (.one (.variableDeclaration loopVariable none false) item body)
  .one (.variableDeclaration itemsName none false) iterable
    (.one (.variableDeclaration indexName none false) (integerNode (-1))
      (.two .whileStatement condition body .null))

/-- `++for_counter`. -/
def nextForCounter : ParserM Nat := fun p => .ok (p.forCounter + 1, { p with forCounter := p.forCounter + 1 })

def parseFor (n : Nat) : ParserM AstNode := do
  parserAdvance
  unless ← parserCheck .identifier do
    parserError "expected loop variable after for."
    return .null
  let loopVariable := parserTokenToString (← currentToken)
  parserAdvance
  unless ← currentIs "in" do
    parserError "expected 'in' after for variable."
    return .null
  parserAdvance
  let iterable ← expr
  if isNull iterable then return .null
  unless ← parserConsume .leftBrace "expected '\x7b' after for expression." do return .null
  let body ← parseBlock stmt n
  let atEnd ← parserCheck .eof
  if isNull body && !atEnd then return .null
  return forStatements (← nextForCounter) loopVariable iterable body

/-! ## Assignments -/

/-- `clone_expression`: `null` for a call, an array literal or the null literal. -/
def cloneExpression : AstNode → AstNode
  | .leaf (.variable name) _ => .leaf (.variable name) .null
  | .leaf (.integerLiteral v) _ => .leaf (.integerLiteral v) .null
  | .leaf (.booleanLiteral v) _ => .leaf (.booleanLiteral v) .null
  | .leaf (.stringLiteral v) _ => .leaf (.stringLiteral v) .null
  | .leaf (.floatLiteral v) _ => .leaf (.floatLiteral v) .null
  | .one (.memberExpression member) a _ =>
      let object := cloneExpression a
      if isNull object then .null else .one (.memberExpression member) object .null
  | .two .indexExpression a b _ =>
      let array := cloneExpression a
      let index := cloneExpression b
      if isNull array || isNull index then .null else .two .indexExpression array index .null
  | .two (.binaryExpression operator) a b _ =>
      let left := cloneExpression a
      let right := cloneExpression b
      if isNull left || isNull right then .null else .two (.binaryExpression operator) left right .null
  | .one (.unaryExpression operator) a _ =>
      let operand := cloneExpression a
      if isNull operand then .null else .one (.unaryExpression operator) operand .null
  | _ => .null

/-- The assignment operators: `none` for `=`, else the operator of a compound assignment. -/
def assignmentOperator : TokenType → Option (Option BinaryOperator)
  | .equals => some none
  | .plusEquals => some (some .add)
  | .minusEquals => some (some .subtract)
  | .starEquals => some (some .multiply)
  | .slashEquals => some (some .divide)
  | .percentEquals => some (some .modulo)
  | _ => none

/-- The loop over the index and member steps of an assignment target. -/
def targetSteps : Nat → AstNode → ParserM AstNode
  | 0, _ => Prog.fault .unfinished
  | n + 1, target => do
      if ← parserCheck .leftBracket then
        parserAdvance
        let index ← expr
        if isNull index then
          parserError "expected array index."
          return .null
        unless ← parserConsume .rightBracket "expected ']' after array index." do return .null
        targetSteps n (.two .indexExpression target index .null)
      else if ← parserCheck .dot then
        parserAdvance
        unless ← parserCheck .identifier do
          parserError "expected member name after '.'."
          return .null
        let member := parserTokenToString (← currentToken)
        parserAdvance
        targetSteps n (.one (.memberExpression member) target .null)
      else return target

/-- The statement that assigns `value` to `target`; a plain name is declared. -/
def assignmentNode (target value : AstNode) : AstNode :=
  match target with
  | .leaf (.variable name) _ => .one (.variableDeclaration name none false) value .null
  | target => .two .assignment target value .null

/-- The value of a compound assignment, which reads a copy of the target. -/
def compoundValue (operator : Option BinaryOperator) (target value : AstNode) : AstNode :=
  match operator with
  | none => value
  | some operator =>
      let left := cloneExpression target
      if isNull left then .null else .two (.binaryExpression operator) left value .null

/-- The function of a module-qualified call, when the target is a member of a plain name. -/
def qualifiedTarget : AstNode → Option String
  | .one (.memberExpression member) object _ => qualifiedName object member
  | _ => none

def parseIdentifierStatement (n : Nat) : ParserM AstNode := do
  let name := parserTokenToString (← currentToken)
  parserAdvance
  if ← parserCheck .leftParen then
    return ← parseFunctionCall expr name n
  let target ← targetSteps expr n (.leaf (.variable name) .null)
  if isNull target then return .null
  let called ← parserCheck .leftParen
  match called, qualifiedTarget target with
  | true, some qualified => parseFunctionCall expr qualified n
  | _, _ =>
      match assignmentOperator (← currentToken).type with
      | none =>
          parserErrorAt "expected assignment operator."
          return .null
      | some operator =>
          parserAdvance
          let value ← expr
          if isNull value then return .null
          let value := compoundValue operator target value
          if isNull value then
            parserError "out of memory."
            return .null
          return assignmentNode target value

def parseDereferenceStatement : ParserM AstNode := do
  parserAdvance
  let operand ← expr
  if isNull operand then
    parserError "expected reference after '*'."
    return .null
  let target := AstNode.one (.unaryExpression .dereference) operand .null
  match assignmentOperator (← currentToken).type with
  | none =>
      parserError "expected assignment operator after dereference."
      return .null
  | some operator =>
      parserAdvance
      let value ← expr
      if isNull value then return .null
      let value := compoundValue operator target value
      if isNull value then return .null
      return .two .assignment target value .null

/-! ## Statements -/

/-- The dispatch of `parse_statement` on the current token. -/
def parseStatementBody (n : Nat) : ParserM AstNode := do
  if ← currentIs "unsafe" then parseUnsafeBlock stmt n
  else if ← currentIs "asm" then parseAsmStatement
  else if ← currentIs "let" then parseLetDeclaration expr
  else if ← currentIs "print" then parsePrint expr
  else if ← currentIs "return" then parseReturn expr
  else if ← currentIs "break" then parseBreak
  else if ← currentIs "continue" then parseContinue
  else if ← currentIs "if" then parseIf stmt expr n
  else if ← currentIs "while" then parseWhile stmt expr n
  else if ← currentIs "for" then parseFor stmt expr n
  else if ← currentIs "fun" then parseFunction stmt false n
  else if ← currentIs "struct" then parseStruct n
  else if ← parserCheck .star then parseDereferenceStatement expr
  else if ← parserCheck .identifier then parseIdentifierStatement expr n
  else
    parserErrorAt "expected a statement."
    return .null

end

def parseStatement (strtod : List Char → Double) : Nat → ParserM AstNode
  | 0 => Prog.fault .unfinished
  | n + 1 => do
      unless ← parserEnterNesting "statement" do return .null
      let statement ← parseStatementBody (parseStatement strtod n) (parseExpression strtod n) n
      let statement := if (← Prog.get).nestingFailed then .null else statement
      parserLeaveNesting
      return statement

/-- The loop of `parser_parse`. -/
def programSteps (stmt : ParserM AstNode) : Nat → AstNode → ParserM (Option AstNode)
  | 0, _ => Prog.fault .unfinished
  | n + 1, statements => do
      if ← parserCheck .eof then return some statements
      let statement ← stmt
      if isNull statement then return none
      programSteps stmt n (statements.append statement)

def parserParse (strtod : List Char → Double) (n : Nat) : ParserM AstNode := do
  match ← programSteps (parseStatement strtod n) n .null with
  | none => return .null
  | some statements => return .one .program statements .null

/-- Lex and parse a source: the program, or `null` after an error. -/
def parseSource (strtod : List Char → Double) (n : Nat) (source : Source) (forCounter : Nat) :
    Except Fault AstNode :=
  match parserInit source forCounter with
  | .error e => .error e
  | .ok p => (parserParse strtod n p).map (·.1)

end Vnt.Parse
