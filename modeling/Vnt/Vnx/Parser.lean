import Vnt.Lib.Prog
import Vnt.StdLib.Arrays

/-!
# `Vnx.Parser` — the lexer and the parser of VNX (`interpreter.vnt`)

`lex` walks over the source with an index and a line number and hangs one token behind the other. A lexical error is printed and
noted in the global `failed`; the walk goes on. The last token is always the end of the file, and no other is.
-/

namespace Vnt.Vnx

open Lib (Turn)
open Net (Bytes ascii)
open StdLib (Hosted stringGet stringGet_ok ok_bind)

/-- The `kind` of a token. `endMark` is what `make_token` puts in `next`, and `bad` what `expect` returns behind an error. -/
inductive TokenKind where
  | nl | str | id | eq | eof | bad | endMark
  deriving DecidableEq

/-- The string that stands in `kind`. -/
def TokenKind.name : TokenKind → Bytes
  | .nl => ascii "NL"
  | .str => ascii "STR"
  | .id => ascii "ID"
  | .eq => ascii "EQ"
  | .eof => ascii "EOF"
  | .bad => ascii "BAD"
  | .endMark => ascii "END"

structure Token where
  kind : TokenKind
  text : Bytes
  line : Nat
  deriving DecidableEq

def makeToken (kind : TokenKind) (text : Bytes) (line : Nat) : Token := ⟨kind, text, line⟩

/-- The locals of `lex` that live across its turns, and the globals it writes: the tokens behind the head, `failed`, and what has
been printed. -/
structure Lexer where
  i : Nat
  line : Nat
  tokens : List Token
  failed : Bool
  printed : List Bytes
  deriving DecidableEq

def Lexer.emit (s : Lexer) (kind : TokenKind) (text : Bytes) (line : Nat) : Lexer :=
  { s with tokens := s.tokens ++ [makeToken kind text line] }

/-- `print(message)` and `failed = true`. -/
def Lexer.error (s : Lexer) (message : Bytes) : Lexer := { s with failed := true, printed := s.printed ++ [message] }

def isDelimiter (ch : UInt8) : Bool :=
  if ch = 32 then true
  else if ch = 9 then true
  else if ch = 13 then true
  else if ch = 10 then true
  else if ch = 61 then true
  else if ch = 35 then true
  else false

/-- `while i < len(source) && source[i] != "\n" { … }` -/
def commentTurn (source : Bytes) (i : Nat) : Hosted (Turn Nat Nat) :=
  if i < source.length then do
    let ch ← stringGet source i
    if ch ≠ 10 then pure (.next (i + 1)) else pure (.done i)
  else pure (.done i)

/-- What an escaped character stands for. -/
def escapedText (escaped : UInt8) : Bytes :=
  if escaped = 110 then [10] else if escaped = 116 then [9] else [escaped]

/-- `while i < len(source) && !closed { … }`, on `value`, `i` and `closed`. -/
def stringTurn (source : Bytes) : Bytes × Nat × Bool → Hosted (Turn (Bytes × Nat × Bool) (Bytes × Nat × Bool))
  | (value, i, closed) =>
      if i < source.length ∧ closed = false then do
        let ch ← stringGet source i
        if ch = 34 then pure (.next (value, i + 1, true))
        else if ch = 92 ∧ i + 1 < source.length then do
          let escaped ← stringGet source ((i + 1 : Nat) : Int)
          pure (.next (value ++ escapedText escaped, i + 2, closed))
        else pure (.next (value ++ [ch], i + 1, closed))
      else pure (.done (value, i, closed))

/-- `while i < len(source) && scanning_word { … }`, on `word` and `i`. -/
def wordTurn (source : Bytes) : Bytes × Nat → Hosted (Turn (Bytes × Nat) (Bytes × Nat))
  | (word, i) =>
      if i < source.length then do
        let ch ← stringGet source i
        if isDelimiter ch then pure (.done (word, i)) else pure (.next (word ++ [ch], i + 1))
      else pure (.done (word, i))

/-- `ch == "=" && i + 1 < len(source) && source[i + 1] == "="` -/
def atEquals (source : Bytes) (ch : UInt8) (i : Nat) : Hosted Bool :=
  if ch = 61 ∧ i + 1 < source.length then do
    let next ← stringGet source ((i + 1 : Nat) : Int)
    pure (next = 61)
  else pure false

/-- A string, `i` at its opening quote. -/
def lexString (source : Bytes) (s : Lexer) : Hosted Lexer := do
  let (value, i, closed) ← StdLib.whileLoop (source.length + 1) (stringTurn source) ([], s.i + 1, false)
  if closed then pure ({ s with i := i }.emit .str value s.line)
  else pure ({ s with i := i }.error
    (ascii "VNX lexer error at line " ++ ascii (toString s.line) ++ ascii ": unterminated string"))

/-- A word, or a character that begins none. -/
def lexWord (source : Bytes) (s : Lexer) : Hosted Lexer := do
  let (word, i) ← StdLib.whileLoop (source.length + 1) (wordTurn source) ([], s.i)
  if word = [] then pure ({ s with i := i + 1 }.error (ascii "VNX lexer error: unexpected character"))
  else pure ({ s with i := i }.emit .id word s.line)

/-- The body of `while i < len(source)`, at the character `ch`. -/
def lexChar (source : Bytes) (s : Lexer) (ch : UInt8) : Hosted Lexer :=
  if ch = 32 ∨ ch = 9 ∨ ch = 13 then pure { s with i := s.i + 1 }
  else if ch = 10 then pure { s.emit .nl [] s.line with line := s.line + 1, i := s.i + 1 }
  else if ch = 35 then do
    let i ← StdLib.whileLoop (source.length + 1) (commentTurn source) s.i
    pure { s with i := i }
  else if ch = 34 then lexString source s
  else do
    if ← atEquals source ch s.i then pure { s.emit .eq (ascii "==") s.line with i := s.i + 2 }
    else lexWord source s

def lexTurn (source : Bytes) (s : Lexer) : Hosted (Turn Lexer Lexer) :=
  if s.i < source.length then do
    let ch ← stringGet source s.i
    let s ← lexChar source s ch
    pure (.next s)
  else pure (.done s)

def lex (source : Bytes) : Hosted Lexer := do
  let s ← StdLib.whileLoop (source.length + 1) (lexTurn source) ⟨0, 1, [], false, []⟩
  pure (s.emit .eof [] s.line)

/-! ## What `lex` leaves -/

variable {source : Bytes} {s : Lexer} {ch : UInt8}

/-- A token that may stand in front of the end of the file. -/
def Token.Inner (t : Token) : Prop := t.kind = .nl ∨ t.kind = .str ∨ t.kind = .id ∨ t.kind = .eq

/-- From `s` to `s'` the walk has moved on and has left only inner tokens. -/
def Walked (s s' : Lexer) : Prop := s.i < s'.i ∧ ∀ t ∈ s'.tokens, t ∈ s.tokens ∨ t.Inner

theorem Walked.silent {s' : Lexer} (hi : s.i < s'.i) (htokens : s'.tokens = s.tokens) : Walked s s' :=
  ⟨hi, fun _ ht => Or.inl (htokens ▸ ht)⟩

theorem Walked.emit {t : Token} {s' : Lexer} (ht : t.Inner) (hi : s.i < s'.i) (htokens : s'.tokens = s.tokens ++ [t]) :
    Walked s s' := by
  refine ⟨hi, ?_⟩
  intro x hx
  rw [htokens] at hx
  rcases List.mem_append.mp hx with hx | hx
  · exact Or.inl hx
  · cases List.mem_singleton.mp hx
    exact Or.inr ht

theorem comment_ok {i : Nat} (hi : i < source.length) (hch : source[i] ≠ 10) :
    ∃ j, StdLib.whileLoop (source.length + 1) (commentTurn source) i = .ok j ∧ i < j := by
  apply @StdLib.whileLoop_total _ _ (commentTurn source) (source.length + 1) i (fun k => i ≤ k) (fun j => i < j)
    (fun k => source.length - k) ?_ (Nat.le_refl i) (by omega)
  intro k hk
  by_cases hlt : k < source.length
  · rw [commentTurn, if_pos hlt, stringGet_ok hlt, ok_bind]
    by_cases hend : source[k] ≠ 10
    · rw [if_pos hend]
      exact ⟨_, rfl, Nat.le_succ_of_le hk, by show source.length - (k + 1) < source.length - k; omega⟩
    · rw [if_neg hend]
      refine ⟨_, rfl, Nat.lt_of_le_of_ne hk ?_⟩
      rintro rfl
      exact hend hch
  · rw [commentTurn, if_neg hlt]
    exact ⟨_, rfl, Nat.lt_of_lt_of_le hi (Nat.le_of_not_lt hlt)⟩

theorem string_ok (i : Nat) : ∃ out, StdLib.whileLoop (source.length + 1) (stringTurn source) ([], i, false) = .ok out ∧
    i ≤ out.2.1 := by
  apply @StdLib.whileLoop_total _ _ (stringTurn source) (source.length + 1) ([], i, false) (fun st => i ≤ st.2.1)
    (fun out => i ≤ out.2.1) (fun st => source.length - st.2.1) ?_ (Nat.le_refl i) (by show source.length - i < _; omega)
  rintro ⟨value, k, closed⟩ hk
  have hki : i ≤ k := hk
  by_cases hgo : k < source.length ∧ closed = false
  · have hlt := hgo.1
    rw [stringTurn, if_pos hgo, stringGet_ok hlt, ok_bind]
    by_cases hquote : source[k] = 34
    · rw [if_pos hquote]
      exact ⟨_, rfl, Nat.le_succ_of_le hki, by show source.length - (k + 1) < source.length - k; omega⟩
    rw [if_neg hquote]
    by_cases hescape : source[k] = 92 ∧ k + 1 < source.length
    · rw [if_pos hescape, stringGet_ok hescape.2, ok_bind]
      exact ⟨_, rfl, Nat.le_add_right_of_le hki, by show source.length - (k + 2) < source.length - k; omega⟩
    · rw [if_neg hescape]
      exact ⟨_, rfl, Nat.le_succ_of_le hki, by show source.length - (k + 1) < source.length - k; omega⟩
  · rw [stringTurn, if_neg hgo]
    exact ⟨_, rfl, hki⟩

theorem word_ok (i : Nat) : ∃ out, StdLib.whileLoop (source.length + 1) (wordTurn source) ([], i) = .ok out ∧
    i ≤ out.2 ∧ (out.1 = [] ∨ i < out.2) := by
  apply @StdLib.whileLoop_total _ _ (wordTurn source) (source.length + 1) ([], i)
    (fun st => i ≤ st.2 ∧ (st.1 = [] ∨ i < st.2)) (fun out => i ≤ out.2 ∧ (out.1 = [] ∨ i < out.2))
    (fun st => source.length - st.2) ?_ ⟨Nat.le_refl i, Or.inl rfl⟩ (by show source.length - i < _; omega)
  rintro ⟨word, k⟩ hk
  have hki : i ≤ k := hk.1
  by_cases hlt : k < source.length
  · rw [wordTurn, if_pos hlt, stringGet_ok hlt, ok_bind]
    by_cases hdelimiter : isDelimiter source[k] = true
    · rw [if_pos hdelimiter]
      exact ⟨_, rfl, hk⟩
    · rw [if_neg hdelimiter]
      exact ⟨_, rfl, ⟨Nat.le_succ_of_le hki, Or.inr (Nat.lt_succ_of_le hki)⟩,
        by show source.length - (k + 1) < source.length - k; omega⟩
  · rw [wordTurn, if_neg hlt]
    exact ⟨_, rfl, hk⟩

theorem atEquals_ok (i : Nat) (ch : UInt8) : ∃ b, atEquals source ch i = .ok b := by
  unfold atEquals
  by_cases h : ch = 61 ∧ i + 1 < source.length
  · rw [if_pos h, stringGet_ok h.2, ok_bind]
    exact ⟨_, rfl⟩
  · rw [if_neg h]
    exact ⟨_, rfl⟩

/-- At every character the walk moves on. -/
theorem lexChar_ok (hi : s.i < source.length) : ∃ s', lexChar source s source[s.i] = .ok s' ∧ Walked s s' := by
  unfold lexChar
  by_cases hblank : source[s.i] = 32 ∨ source[s.i] = 9 ∨ source[s.i] = 13
  · rw [if_pos hblank]
    exact ⟨_, rfl, .silent (Nat.lt_succ_self _) rfl⟩
  rw [if_neg hblank]
  by_cases hnewline : source[s.i] = 10
  · rw [if_pos hnewline]
    exact ⟨_, rfl, .emit (Or.inl rfl) (Nat.lt_succ_self _) rfl⟩
  rw [if_neg hnewline]
  by_cases hcomment : source[s.i] = 35
  · obtain ⟨j, hrun, hj⟩ := comment_ok hi hnewline
    rw [if_pos hcomment, hrun, ok_bind]
    exact ⟨_, rfl, .silent hj rfl⟩
  rw [if_neg hcomment]
  by_cases hquote : source[s.i] = 34
  · obtain ⟨⟨value, j, closed⟩, hrun, hj⟩ := @string_ok source (s.i + 1)
    rw [if_pos hquote, lexString, hrun, ok_bind]
    cases closed with
    | true => exact ⟨_, rfl, .emit (Or.inr (Or.inl rfl)) hj rfl⟩
    | false => exact ⟨_, rfl, .silent hj rfl⟩
  obtain ⟨b, hequals⟩ := @atEquals_ok source s.i source[s.i]
  rw [if_neg hquote, hequals, ok_bind]
  cases b with
  | true => exact ⟨_, rfl, .emit (Or.inr (Or.inr (Or.inr rfl))) (Nat.lt_add_of_pos_right (by decide)) rfl⟩
  | false =>
      obtain ⟨⟨word, j⟩, hrun, hj, hmoved⟩ := @word_ok source s.i
      rw [if_neg Bool.false_ne_true, lexWord, hrun, ok_bind]
      by_cases hempty : word = []
      · rw [hempty]
        exact ⟨_, rfl, .silent (Nat.lt_succ_of_le hj) rfl⟩
      · refine ⟨_, if_neg hempty, .emit (Or.inr (Or.inr (Or.inl rfl))) ?_ rfl⟩
        exact hmoved.resolve_left hempty

/-- **`lex` returns**, and the end of the file is the last token and no other. -/
theorem lex_ok (source : Bytes) : ∃ s body e, lex source = .ok s ∧ s.tokens = body ++ [e] ∧ e.kind = .eof ∧
    ∀ t ∈ body, t.Inner := by
  obtain ⟨s, hrun, hinner⟩ := @StdLib.whileLoop_total _ _ (lexTurn source) (source.length + 1) ⟨0, 1, [], false, []⟩
    (fun s => ∀ t ∈ s.tokens, t.Inner) (fun s => ∀ t ∈ s.tokens, t.Inner) (fun s => source.length - s.i) (by
      intro s hinner
      by_cases hi : s.i < source.length
      · obtain ⟨s', hchar, hmoved, htokens⟩ := lexChar_ok hi
        rw [lexTurn, if_pos hi, stringGet_ok hi, ok_bind, hchar, ok_bind]
        refine ⟨_, rfl, ?_, ?_⟩
        · intro t ht
          exact (htokens t ht).elim (hinner t) id
        · show source.length - s'.i < source.length - s.i
          omega
      · rw [lexTurn, if_neg hi]
        exact ⟨_, rfl, hinner⟩) (fun _ h => absurd h List.not_mem_nil) (by show source.length - 0 < _; omega)
  refine ⟨s.emit .eof [] s.line, s.tokens, makeToken .eof [] s.line, ?_, rfl, rfl, hinner⟩
  rw [lex, hrun]
  rfl

end Vnt.Vnx

/-!
## The parser

`parse` reads the tokens from the global `current` on and hangs a node for every statement behind the last one. An error sets the
global `failed` and hands a placeholder token to the statement, which goes on; only the loop over the statements looks at the
flag.
-/

namespace Vnt.Vnx

open Lib (Prog)
open Net (Bytes ascii)
open StdLib (Hosted)

/-- The `kind` of a node. -/
inductive NodeKind where
  | bad | say | sayVar | set | input | label | jump | when | end
  deriving DecidableEq

structure Node where
  kind : NodeKind
  line : Nat
  a : Bytes
  b : Bytes
  c : Bytes
  deriving DecidableEq

def makeNode (kind : NodeKind) (line : Nat) : Node := ⟨kind, line, [], [], []⟩

/-- The globals: the tokens from `current` on, the nodes behind the head of `program`, `failed`, and what has been printed. -/
structure Parser where
  current : List Token
  program : List Node
  failed : Bool
  printed : List Bytes
  deriving DecidableEq

/-- `current`. -/
def Parser.front (p : Parser) : Token := p.current.headD (makeToken .endMark [] 0)

/-- `if current.kind != "EOF" { current = current.next }` -/
def Parser.advance (p : Parser) : Parser := if p.front.kind ≠ .eof then { p with current := p.current.tail } else p

abbrev Parsing (α : Type) := Prog Parser Stop α

def take : Parsing Token := do
  let old ← Prog.get
  Prog.modify Parser.advance
  pure old.front

/-- `print(message)` and `failed = true`. -/
def report (message : Bytes) : Parsing Unit :=
  Prog.modify fun p => { p with failed := true, printed := p.printed ++ [message] }

def errorAt (line : Nat) (message : Bytes) : Bytes :=
  ascii "VNX parser error at line " ++ ascii (toString line) ++ ascii ": " ++ message

def expect (kind : TokenKind) (what : String) : Parsing Token := do
  let p ← Prog.get
  if p.front.kind = kind then take
  else do
    report (errorAt p.front.line (ascii "expected " ++ ascii what))
    pure (makeToken .bad [] p.front.line)

def addNode (n : Node) : Parsing Unit := Prog.modify fun p => { p with program := p.program ++ [n] }

/-- `while current.kind == "NL" { take() }`, on the tokens that are left. -/
def skipTokens : List Token → List Token
  | [] => []
  | t :: more => if t.kind = .nl then skipTokens more else t :: more

def skipLines : Parsing Unit := Prog.modify fun p => { p with current := skipTokens p.current }

/-! ## Statements -/

def saySource (kw : Token) : Parsing Node := do
  let p ← Prog.get
  if p.front.kind = .str then do
    let v ← take
    pure { makeNode .say kw.line with a := v.text }
  else do
    let v ← expect .id "string literal or variable"
    pure { makeNode .sayVar kw.line with a := v.text }

def setSource (kw : Token) : Parsing Node := do
  let name ← expect .id "variable name"
  let value ← expect .str "quoted value"
  pure { makeNode .set kw.line with a := name.text, b := value.text }

def inputSource (kw : Token) : Parsing Node := do
  let name ← expect .id "variable name"
  let prompt ← expect .str "quoted prompt"
  pure { makeNode .input kw.line with a := name.text, b := prompt.text }

def labelSource (kw : Token) : Parsing Node := do
  let name ← expect .id "label name"
  pure { makeNode .label kw.line with a := name.text }

def jumpSource (kw : Token) : Parsing Node := do
  let name ← expect .id "label name"
  pure { makeNode .jump kw.line with a := name.text }

/-- The fifth token is an identifier; which one is not looked at. -/
def whenSource (kw : Token) : Parsing Node := do
  let name ← expect .id "variable name"
  let _ ← expect .eq "=="
  let value ← expect .str "quoted comparison value"
  let _ ← expect .id "jump keyword"
  let dest ← expect .id "label name"
  pure { makeNode .when kw.line with a := name.text, b := value.text, c := dest.text }

def statement (kw : Token) : Parsing Node :=
  if kw.text = ascii "say" then saySource kw
  else if kw.text = ascii "set" then setSource kw
  else if kw.text = ascii "input" then inputSource kw
  else if kw.text = ascii "label" then labelSource kw
  else if kw.text = ascii "jump" then jumpSource kw
  else if kw.text = ascii "when" then whenSource kw
  else if kw.text = ascii "end" then pure (makeNode .end kw.line)
  else do
    report (errorAt kw.line (ascii "unknown statement " ++ kw.text))
    pure (makeNode .bad kw.line)

/-- `if !failed { add_node(n) }` -/
def addQuietly (n : Node) : Parsing Unit := do
  let p ← Prog.get
  if p.failed then pure () else addNode n

/-- What has to stand behind a statement. -/
def endLine : Parsing Unit := do
  let p ← Prog.get
  if p.front.kind = .nl then skipLines
  else if p.front.kind ≠ .eof ∧ p.failed = false then
    report (errorAt p.front.line
      (ascii "expected end of line; got " ++ p.front.kind.name ++ ascii " [" ++ p.front.text ++ ascii "]"))
  else pure ()

/-- The body of `while current.kind != "EOF" && !failed`. -/
def parseLine : Parsing Unit := do
  let kw ← expect .id "statement keyword"
  let n ← statement kw
  addQuietly n
  endLine

/-- `current.kind != "EOF" && !failed` -/
def goesOn : Parsing Bool := do
  let p ← Prog.get
  pure (p.front.kind ≠ .eof ∧ p.failed = false)

/-- `parse`, in at most `turns` turns of its loop. -/
def parse (turns : Nat) : Parsing Unit := do
  skipLines
  Prog.whileDo .outOfClock goesOn parseLine turns

/-- `parse` behind a `lex` that has not failed. -/
def parseTokens (tokens : List Token) : Hosted Parser := do
  let (_, p) ← parse (tokens.length + 2) ⟨tokens, [], false, []⟩
  pure p

end Vnt.Vnx
