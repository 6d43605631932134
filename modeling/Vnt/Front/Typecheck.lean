import Vnt.Front.Ast

/-!
# `Front.Typecheck` — `vnt_typecheck`

The checker walks the statements with one symbol stack that it cuts back at the end of a block, counters
for the depth of scopes, loops and unsafe blocks, and the functions and structs of the top level. It
stops at its first error, so it is a function into `Except String`, and it writes two things into the
tree: which assignments are reassignments, and the qualified names of calls to sibling exports.

Two fields of the model are not in the source. A symbol carries the number under which it was added, and
`log` lists, for each variable occurrence in order, its name and the number of the symbol it was found
to be; declarations and parameters log their own symbol.
-/

namespace Vnt

/-- `TypeKind`. -/
inductive TypeKind where
  | undeclared | unknown | int | i64 | float | bool | string
  | array | object | reference | pointer | void
  deriving DecidableEq, Repr

/-- `Symbol`, with its serial number. -/
structure Symbol where
  name : String
  type : TypeKind
  explicitType : Bool
  dynamic : Bool
  scopeDepth : Nat
  serial : Nat
  deriving DecidableEq, Repr

/-- `TypeChecker`. The newest symbol is the head of `symbols`; a function is known by the header of its
    declaration, a struct by its name. -/
structure TypeChecker where
  symbols : List Symbol
  functions : List FunctionHeader
  structs : List String
  expectedReturn : TypeKind
  inFunction : Bool
  scopeDepth : Nat
  unsafeDepth : Nat
  loopDepth : Nat
  functionNamespace : Option String
  nextSerial : Nat
  log : List (String × Nat)
  deriving DecidableEq, Repr

abbrev Check := Except String

/-- `if (condition) error(tc, message);` -/
def failIf (c : Prop) [Decidable c] (message : String) : Check Unit :=
  if c then throw message else pure ()

/-- `snprintf` into a buffer of `size` bytes. -/
def snprintf (size : Nat) (message : String) : String := String.ofList (message.toList.take (size - 1))

/-- Plural ending of a count. -/
def plural (n : Nat) : String := if n = 1 then "" else "s"

/-! ## Types and symbols -/

def numeric : TypeKind → Bool
  | .int | .i64 | .float => true
  | _ => false

/-- `type_from_name`. -/
def typeFromName (name : String) : TypeKind :=
  (([("int", .int), ("i64", .i64), ("float", .float), ("bool", .bool), ("string", .string),
    ("array", .array), ("object", .object), ("reference", .reference), ("ptr", .pointer),
    ("void", .void)] : List (String × TypeKind)).lookup name).getD .undeclared

/-- `type_name`. -/
def typeName : TypeKind → String
  | .undeclared => "undeclared"
  | .unknown => "unknown"
  | .int => "int"
  | .i64 => "i64"
  | .float => "float"
  | .bool => "bool"
  | .string => "string"
  | .array => "array"
  | .object => "object"
  | .reference => "reference"
  | .pointer => "ptr"
  | .void => "void"

/-- `type_compatible`. -/
def typeCompatible (expected actual : TypeKind) : Bool :=
  expected == .unknown || actual == .unknown || expected == actual || (numeric expected && numeric actual)

namespace TypeChecker

/-- `find_symbol_index`: the newest symbol of that name. -/
def findSymbol (tc : TypeChecker) (name : String) : Option Symbol :=
  tc.symbols.find? fun s => s.name == name

/-- `add_symbol`. -/
def addSymbol (tc : TypeChecker) (name : String) (type : TypeKind) (explicitType : Bool) : TypeChecker :=
  { tc with
    symbols := { name, type, explicitType, dynamic := false, scopeDepth := tc.scopeDepth
                 serial := tc.nextSerial } :: tc.symbols
    nextSerial := tc.nextSerial + 1 }

/-- What `set_symbol` does to the symbol it finds. -/
def updateSymbol (s : Symbol) (type : TypeKind) (explicitType : Bool) : Check Symbol :=
  if s.type ≠ .unknown ∧ type ≠ .unknown ∧ s.type ≠ type ∧ ¬ (numeric s.type && numeric type) then
    if s.explicitType || explicitType then throw "variable type changed incompatibly."
    else pure { s with type := .unknown, dynamic := true }
  else
    let s := if s.type = .unknown ∧ ¬ s.dynamic then { s with type } else s
    pure { s with explicitType := s.explicitType || explicitType }

/-- Update the newest symbol of that name. -/
def updateSymbols (name : String) (type : TypeKind) (explicitType : Bool) :
    List Symbol → Check (List Symbol)
  | [] => pure []
  | s :: rest =>
      if s.name = name then do
        let s' ← updateSymbol s type explicitType
        pure (s' :: rest)
      else do
        let rest' ← updateSymbols name type explicitType rest
        pure (s :: rest')

/-- `set_symbol`. -/
def setSymbol (tc : TypeChecker) (name : String) (type : TypeKind) (explicitType : Bool) :
    Check TypeChecker :=
  match tc.findSymbol name with
  | some _ => do
      let symbols ← updateSymbols name type explicitType tc.symbols
      pure { tc with symbols }
  | none => pure (tc.addSymbol name type explicitType)

/-- `discard_symbols_to`. -/
def discardSymbolsTo (tc : TypeChecker) (count : Nat) : TypeChecker :=
  { tc with symbols := tc.symbols.drop (tc.symbols.length - count) }

/-- `restore_symbols`. -/
def restoreSymbols (tc : TypeChecker) (states : List Symbol) : TypeChecker :=
  { tc with
    symbols := (tc.symbols.zip states).map fun p => { p.1 with type := p.2.type, dynamic := p.2.dynamic } }

/-- One symbol of `merge_branch_symbols`. -/
def mergeSymbol (before thenState s : Symbol) : Symbol :=
  let a := thenState.type
  let b := s.type
  if thenState.dynamic || s.dynamic || (a != b && a != .unknown && b != .unknown) then
    if s.explicitType then { s with type := before.type, dynamic := before.dynamic }
    else { s with type := .unknown, dynamic := true }
  else if a == .unknown || b == .unknown then
    { s with type := .unknown, dynamic := thenState.dynamic || s.dynamic }
  else { s with type := a }

/-- `merge_branch_symbols`. -/
def mergeBranchSymbols (tc : TypeChecker) (before thenState : List Symbol) : TypeChecker :=
  { tc with
    symbols := (before.zip (thenState.zip tc.symbols)).map fun p => mergeSymbol p.1 p.2.1 p.2.2 }

/-- Note that an occurrence of `name` was found to be this symbol. -/
def logSymbol (tc : TypeChecker) (name : String) : TypeChecker :=
  { tc with log := tc.log ++ ((tc.findSymbol name).toList.map fun s => (name, s.serial)) }

end TypeChecker

/-! ## Calls -/

/-- The builtins with their least and greatest number of arguments. -/
def builtinArities : List (String × Nat × Nat) :=
  [("symbol_address", 1, 1), ("cpu_read_cr2", 0, 0), ("cpu_read_msr", 1, 1), ("cpu_write_msr", 2, 2),
   ("cpu_invlpg", 1, 1), ("cpu_atomic_exchange_u64", 2, 2),
   ("mem_alloc", 1, 1), ("mem_free", 1, 1), ("mem_is_null", 1, 1),
   ("mem_read_u8", 2, 2), ("mem_read_u32", 2, 2), ("mem_read_u64", 2, 2),
   ("mem_realloc", 2, 2), ("mem_ptr_add", 2, 2),
   ("mem_write_u8", 3, 3), ("mem_write_u32", 3, 3), ("mem_write_u64", 3, 3), ("mem_copy", 3, 3),
   ("mem_set", 3, 3), ("range", 1, 3),
   ("sqrt", 1, 1), ("sin", 1, 1), ("cos", 1, 1), ("tan", 1, 1), ("abs", 1, 1), ("floor", 1, 1),
   ("ceil", 1, 1), ("len", 1, 1), ("input", 1, 1), ("min", 2, 2), ("max", 2, 2), ("mod", 2, 2),
   ("object", 0, 0), ("ffi_int", 2, 8), ("cwd", 0, 0), ("time_ms", 0, 0),
   ("fs_exists", 1, 1), ("fs_read", 1, 1), ("fs_delete", 1, 1), ("fs_is_file", 1, 1),
   ("fs_is_dir", 1, 1), ("fs_list", 1, 1), ("dir_create", 1, 1), ("env_get", 1, 1), ("env_has", 1, 1),
   ("sleep_ms", 1, 1), ("process_poll", 1, 1), ("process_pid", 1, 1), ("process_terminate", 1, 1),
   ("process_stdout", 1, 1), ("process_stderr", 1, 1), ("process_exit_code", 1, 1),
   ("process_exit", 1, 1), ("process_launch", 1, 1), ("io_write", 1, 1), ("io_write_error", 1, 1),
   ("process_wait", 2, 2), ("process_start", 2, 2),
   ("net_stream_start", 4, 4), ("net_stream_read", 2, 2), ("net_stream_done", 1, 1),
   ("net_stream_status", 1, 1), ("net_stream_cancel", 1, 1), ("net_stream_release", 1, 1),
   ("net_async_start", 4, 4), ("net_async_poll", 1, 1), ("net_async_cancel", 1, 1),
   ("net_async_result", 1, 1), ("net_async_status", 1, 1), ("net_async_release", 1, 1),
   ("net_async_wait", 2, 2), ("net_request", 4, 4), ("net_request_bytes", 4, 4), ("net_status", 3, 3),
   ("net_download", 3, 3), ("net_url_encode", 1, 1), ("utf8_len", 1, 1),
   ("time_local_parts", 1, 1), ("time_utc_parts", 1, 1), ("crypto_sha256", 1, 1),
   ("crypto_constant_time_equal", 2, 2), ("bigint_add", 2, 2), ("bigint_sub", 2, 2),
   ("bigint_mul", 2, 2), ("bigint_compare", 2, 2), ("utf8_slice", 3, 3), ("fs_write_atomic", 2, 2),
   ("fs_write", 2, 2), ("fs_append", 2, 2), ("fs_rename", 2, 2), ("env_set", 2, 2),
   ("gui_css", 1, 1), ("gui_button", 3, 3), ("gui_text_at", 3, 3), ("gui_title", 3, 3),
   ("gui_input_set", 3, 3), ("gui_textarea_set", 3, 3), ("json_value_at", 3, 3), ("gui_panel", 4, 4),
   ("gui_input", 4, 4), ("gui_checkbox", 4, 4), ("gui_progress", 4, 4), ("gui_button_sized", 5, 5),
   ("gui_textarea", 5, 5), ("gui_panel_color", 5, 5), ("gui_text_style", 5, 5), ("gui_separator", 3, 3),
   ("gui_size", 2, 2), ("gui_open", 1, 1), ("gui_text", 1, 1), ("gui_fill", 1, 1), ("gui_rect", 1, 1),
   ("gui_poll", 0, 0), ("gui_key", 0, 0), ("gui_close", 0, 0), ("gui_present", 0, 0)]

/-- `builtin_arity`: `none` for a name that is no builtin, else whether it takes `argc` arguments. -/
def builtinArity (name : String) (argc : Nat) : Option Bool :=
  (builtinArities.lookup name).map fun r => decide (r.1 ≤ argc ∧ argc ≤ r.2)

/-- The result types `expr_type` knows for builtins. -/
def builtinResults : List (String × TypeKind) :=
  [("len", .int), ("utf8_len", .int), ("mod", .int), ("ffi_int", .int),
   ("sqrt", .float), ("sin", .float), ("cos", .float), ("tan", .float), ("abs", .float),
   ("floor", .float), ("ceil", .float),
   ("mem_alloc", .pointer), ("mem_realloc", .pointer), ("mem_ptr_add", .pointer),
   ("mem_read_u8", .int), ("mem_read_u32", .int), ("mem_read_u64", .i64), ("cpu_read_cr2", .i64),
   ("cpu_invlpg", .bool), ("cpu_atomic_exchange_u64", .i64), ("cpu_write_msr", .int),
   ("symbol_address", .i64), ("mem_free", .bool), ("mem_is_null", .bool), ("mem_write_u8", .bool),
   ("mem_write_u32", .bool), ("mem_write_u64", .bool), ("mem_copy", .bool), ("mem_set", .bool),
   ("crypto_sha256", .string), ("crypto_constant_time_equal", .bool),
   ("bigint_add", .string), ("bigint_sub", .string), ("bigint_mul", .string), ("utf8_slice", .string),
   ("bigint_compare", .int), ("fs_write_atomic", .bool), ("time_local_parts", .array),
   ("time_utc_parts", .array), ("process_start", .object), ("process_launch", .bool),
   ("process_stdout", .string), ("process_stderr", .string), ("input", .string), ("fs_read", .string),
   ("cwd", .string), ("fs_exists", .bool), ("fs_write", .bool), ("fs_append", .bool),
   ("fs_delete", .bool), ("fs_rename", .bool), ("fs_is_file", .bool), ("fs_is_dir", .bool),
   ("io_write", .bool), ("io_write_error", .bool), ("dir_create", .bool), ("env_has", .bool),
   ("env_set", .bool), ("fs_list", .array), ("time_ms", .float), ("process_pid", .int),
   ("process_exit_code", .int), ("process_poll", .bool), ("process_wait", .bool),
   ("process_terminate", .bool), ("object", .object), ("gui_open", .bool), ("gui_poll", .bool),
   ("gui_css", .bool), ("gui_button", .bool), ("gui_button_sized", .bool), ("gui_text_at", .bool),
   ("gui_title", .bool), ("gui_panel", .bool), ("gui_panel_color", .bool), ("gui_text_style", .bool),
   ("gui_input_set", .bool), ("gui_checkbox", .bool), ("gui_progress", .bool), ("gui_separator", .bool),
   ("gui_present", .bool), ("gui_key", .int), ("gui_input", .string), ("gui_textarea", .string),
   ("gui_textarea_set", .bool), ("json_value_at", .string), ("gui_size", .bool), ("gui_text", .bool),
   ("gui_fill", .bool), ("gui_rect", .bool), ("gui_close", .bool)]

/-- The names `expr_type` accepts only inside an unsafe block. -/
def rawMemoryBuiltins : List String :=
  ["mem_alloc", "mem_free", "mem_is_null", "mem_realloc", "mem_ptr_add", "mem_read_u8", "mem_read_u32",
   "mem_read_u64", "mem_write_u8", "mem_write_u32", "mem_write_u64", "mem_copy", "mem_set",
   "cpu_read_cr2", "cpu_invlpg", "cpu_atomic_exchange_u64", "symbol_address"]

/-- The text before the first `__`, if there is one. -/
def beforeSeparator : List Char → Option (List Char)
  | '_' :: '_' :: _ => some []
  | c :: cs => (beforeSeparator cs).map (c :: ·)
  | [] => none

namespace TypeChecker

/-- `find_function`. -/
def findFunctionDef (tc : TypeChecker) (name : String) : Option FunctionHeader :=
  tc.functions.find? fun h => h.name == name

/-- `resolve_function_call`: the name the call keeps. Inside an imported module an unqualified name means
    the module's own export, if there is one. -/
def resolveName (tc : TypeChecker) (name : String) (argc : Nat) : String :=
  match tc.functionNamespace with
  | none => name
  | some ns =>
      if (builtinArity name argc).isSome || tc.structs.contains name ||
          (beforeSeparator name.toList).isSome then name
      else
        let qualified := ns ++ "__" ++ name
        if (tc.findFunctionDef qualified).isSome then qualified else name

end TypeChecker

/-- `is_string_index_expr` on a node whose type is `t`: an index expression has type string exactly when
    its container has. -/
def isStringIndexExpr : AstNode → TypeKind → Bool
  | .two .indexExpression _ _ _, t => t == .string
  | _, _ => false

/-- One argument against the declared type of its parameter, in `check_call`. -/
def checkParameter (callee : String) (position : Nat) (parameter text : String) (arg : AstNode)
    (actual : TypeKind) : Check Unit := do
  let expected := typeFromName text
  failIf (expected = .undeclared ∨ expected = .void) "function parameter uses an invalid type."
  failIf (!typeCompatible expected actual &&
      !(expected == .int && actual == .string && isStringIndexExpr arg actual))
    (snprintf 320
      (s!"argument {position} ('{parameter}') to function '{callee}' expects " ++
        s!"{typeName expected} but received {typeName actual}."))

/-- The parameter types of `check_call`, from the given position on. -/
def checkParameters (callee : String) : Nat → List (String × Option String) → AstNode → List TypeKind →
    Check Unit
  | position, (parameter, some text) :: ps, arg, actual :: ts => do
      checkParameter callee position parameter text arg actual
      checkParameters callee (position + 1) ps arg.next ts
  | position, (_, none) :: ps, arg, _ :: ts => checkParameters callee (position + 1) ps arg.next ts
  | _, _, _, _ => pure ()

/-- The arguments of a call in order; none may be void. -/
def checkArguments (message : String) : List (Check TypeKind) → Check (List TypeKind)
  | [] => pure []
  | m :: ms => do
      let t ← m
      failIf (t = .void) message
      let ts ← checkArguments message ms
      pure (t :: ts)

/-- `check_call`, after the arguments. -/
def checkCall (tc : TypeChecker) (name : String) (arguments : AstNode) (types : List TypeKind) :
    Check Unit :=
  let argc := arguments.length
  match builtinArity name argc with
  | some true => pure ()
  | some false =>
      throw (snprintf 256 s!"builtin '{name}' does not accept {argc} argument{plural argc}.")
  | none =>
      if tc.structs.contains name then
        if argc ≠ 0 then
          throw (snprintf 256 s!"struct constructor '{name}' currently takes no arguments.")
        else pure ()
      else
        match tc.findFunctionDef name with
        | none => throw (snprintf 256 s!"call to undeclared function '{name}'.")
        | some h =>
            let arity := h.parameters.length
            if arity ≠ argc then
              throw (snprintf 256
                (s!"function '{name}' expects {arity} argument{plural arity} " ++
                  s!"but received {argc}."))
            else checkParameters name 1 h.parameters arguments types

/-- The result type of a call. -/
def callResult (tc : TypeChecker) (name : String) : TypeKind :=
  match builtinResults.lookup name with
  | some t => t
  | none =>
      if tc.structs.contains name then .object
      else
        match (tc.findFunctionDef name).bind (·.returnType) with
        | some text => if typeFromName text = .undeclared then .unknown else typeFromName text
        | none => .unknown

/-- `expr_type` on a call. -/
def callType (tc : TypeChecker) (source : String) (arguments : AstNode) (types : List (Check TypeKind)) :
    Check TypeKind := do
  let name := tc.resolveName source arguments.length
  failIf ((tc.findFunctionDef name).any (·.isUnsafe) ∧ tc.unsafeDepth = 0)
    "unsafe function calls must be inside an unsafe block."
  failIf (name ∈ rawMemoryBuiltins ∧ tc.unsafeDepth = 0)
    "raw memory builtins may only be called inside an unsafe block."
  let ts ← checkArguments "void function call cannot be used as an argument." types
  checkCall tc name arguments ts
  failIf (tc.structs.contains name ∧ arguments.length ≠ 0)
    "struct constructors currently take no arguments."
  pure (callResult tc name)

/-! ## Expressions -/

/-- `expr_type` of the only child of a node; a missing one has an unknown type. -/
def headType : List (Check TypeKind) → Check TypeKind
  | [] => pure .unknown
  | m :: _ => m

/-- `expr_type` on a node without children. -/
def leafType (tc : TypeChecker) : AstLeaf → Check TypeKind
  | .integerLiteral v => pure (if v < -2147483648 ∨ v > 2147483647 then .i64 else .int)
  | .floatLiteral _ => pure .float
  | .booleanLiteral _ => pure .bool
  | .nullLiteral => pure .pointer
  | .stringLiteral _ => pure .string
  | .variable x =>
      match tc.findSymbol x with
      | none => throw (snprintf 256 s!"use of undeclared variable '{x}'.")
      | some s =>
          if s.type = .undeclared then throw (snprintf 256 s!"use of undeclared variable '{x}'.")
          else pure s.type
  | _ => pure .unknown

/-- How the message about a bad index names it. -/
def indexDescription : AstNode → String
  | .leaf (.variable x) _ => x
  | .leaf (.integerLiteral _) _ => "integer literal"
  | _ => "nontrivial expression"

/-- `expr_type` on a unary operator over an operand of type `t`. -/
def unaryType (op : UnaryOperator) (t : TypeKind) : Check TypeKind :=
  if t = .void then throw "void function call cannot be used in a unary expression."
  else
    match op with
    | .not => if t ≠ .bool ∧ t ≠ .unknown then throw "'!' requires a boolean." else pure .bool
    | .negate =>
        if ¬ numeric t ∧ t ≠ .unknown then throw "unary '-' requires a number." else pure t
    | .reference => pure .reference
    | .dereference =>
        if t ≠ .reference ∧ t ≠ .unknown then throw "dereference requires a reference."
        else pure .unknown

/-- `expr_type` on an arithmetic operator. -/
def arithmeticType (op : BinaryOperator) (l r : TypeKind) : Check TypeKind :=
  if op = .add ∧ (l = .string ∨ r = .string) then
    let other := if l = .string then r else l
    if other = .string ∨ other = .int ∨ other = .float ∨ other = .bool ∨ other = .unknown then
      pure .string
    else throw "string concatenation requires string, number, or boolean values."
  else if ¬ numeric l ∨ ¬ numeric r then
    if l ≠ .unknown ∧ r ≠ .unknown then throw "arithmetic requires compatible numeric values."
    else pure .unknown
  else if l = .float ∨ r = .float then pure .float
  else if l = .i64 ∨ r = .i64 then pure .i64
  else pure .int

/-- `expr_type` on a binary operator over the operands `a : l` and `b : r`. -/
def binaryType (op : BinaryOperator) (a b : AstNode) (l r : TypeKind) : Check TypeKind :=
  if l = .void ∨ r = .void then throw "void function call cannot be used in a binary expression."
  else
    match op with
    | .and | .or =>
        if (l ≠ .bool ∧ l ≠ .unknown) ∨ (r ≠ .bool ∧ r ≠ .unknown) then
          throw "logical operators require booleans."
        else pure .bool
    | .equal | .notEqual =>
        let stringByteComparison := (l == .string && r == .int && isStringIndexExpr a l) ||
          (l == .int && r == .string && isStringIndexExpr b r)
        if l ≠ .unknown ∧ r ≠ .unknown ∧ l ≠ r ∧ ¬ (numeric l && numeric r) ∧
            ¬ stringByteComparison then
          throw "equality operands must have compatible types."
        else pure .bool
    | .greater | .less | .greaterEqual | .lessEqual =>
        if (¬ numeric l ∧ l ≠ .unknown) ∨ (¬ numeric r ∧ r ≠ .unknown) then
          throw "ordered comparisons require numeric operands."
        else pure .bool
    | op => arithmeticType op l r

/-- `expr_type` on an index expression. -/
def indexType (index : AstNode) (container t : TypeKind) : Check TypeKind := do
  failIf (t ≠ .int ∧ t ≠ .unknown)
    (snprintf 256
      (s!"array/string index must be an integer (received {typeName t} " ++
        s!"from {indexDescription index})."))
  failIf (container ≠ .array ∧ container ≠ .string ∧ container ≠ .unknown ∧ container ≠ .object)
    "indexing requires an array, string, or object."
  pure (if container = .string then .string else .unknown)

/-- `expr_type` of each node of a chain. -/
def exprTypes (tc : TypeChecker) : AstNode → List (Check TypeKind)
  | .null => []
  | .leaf kind n => leafType tc kind :: exprTypes tc n
  | .one kind child n =>
      let types := exprTypes tc child
      (match kind with
        | .arrayLiteral => do
            let _ ← checkArguments "void function call cannot be stored in an array." types
            pure .array
        | .memberExpression _ => do
            let t ← headType types
            failIf (t = .void) "void function call cannot be used for member access."
            pure .unknown
        | .functionCall name => callType tc name child types
        | .unaryExpression op => do
            let t ← headType types
            unaryType op t
        | _ => pure .unknown) :: exprTypes tc n
  | .two kind a b n =>
      (match kind with
        | .indexExpression => do
            let container ← headType (exprTypes tc a)
            let t ← headType (exprTypes tc b)
            indexType b container t
        | .binaryExpression op => do
            let l ← headType (exprTypes tc a)
            let r ← headType (exprTypes tc b)
            binaryType op a b l r
        | _ => pure .unknown) :: exprTypes tc n
  | .ifStatement _ _ _ n => pure .unknown :: exprTypes tc n

/-- The tree as `expr_type` leaves it: calls under their resolved names. -/
@[simp] def resolveCalls (tc : TypeChecker) : AstNode → AstNode
  | .null => .null
  | .leaf kind n => .leaf kind (resolveCalls tc n)
  | .one kind child n =>
      match kind with
      | .functionCall name =>
          .one (.functionCall (tc.resolveName name child.length)) (resolveCalls tc child) (resolveCalls tc n)
      | .arrayLiteral | .memberExpression _ | .unaryExpression _ =>
          .one kind (resolveCalls tc child) (resolveCalls tc n)
      | kind => .one kind child (resolveCalls tc n)
  | .two kind a b n =>
      match kind with
      | .indexExpression | .binaryExpression _ =>
          .two kind (resolveCalls tc a) (resolveCalls tc b) (resolveCalls tc n)
      | kind => .two kind a b (resolveCalls tc n)
  | .ifStatement c t e n => .ifStatement c t e (resolveCalls tc n)

/-- The entries of the only child of a node. -/
def headLog : List (List (String × Nat)) → List (String × Nat)
  | [] => []
  | l :: _ => l

/-- The symbols `expr_type` finds for the variables of each node of a chain, in order. -/
def exprLogs (tc : TypeChecker) : AstNode → List (List (String × Nat))
  | .null => []
  | .leaf kind n =>
      (match kind with
        | .variable x => (tc.findSymbol x).toList.map fun s => (x, s.serial)
        | _ => []) :: exprLogs tc n
  | .one kind child n =>
      (match kind with
        | .functionCall _ | .arrayLiteral => (exprLogs tc child).flatten
        | .memberExpression _ | .unaryExpression _ => headLog (exprLogs tc child)
        | _ => []) :: exprLogs tc n
  | .two kind a b n =>
      (match kind with
        | .indexExpression | .binaryExpression _ => headLog (exprLogs tc a) ++ headLog (exprLogs tc b)
        | _ => []) :: exprLogs tc n
  | .ifStatement _ _ _ n => [] :: exprLogs tc n

/-- `expr_type` on the head of a chain, as a statement uses it. -/
def exprType (tc : TypeChecker) (e : AstNode) : Check TypeKind := headType (exprTypes tc e)

namespace TypeChecker

/-- Log the variables of the expression at the head of a chain. -/
def logExpr (tc : TypeChecker) (e : AstNode) : TypeChecker :=
  { tc with log := tc.log ++ headLog (exprLogs tc e) }

end TypeChecker

/-! ## Statements -/

/-- `collect_declarations`: the functions and structs of the top level. -/
def collectDeclarations : AstNode → TypeChecker → Check TypeChecker
  | .null, tc => pure tc
  | .one (.functionDeclaration h) _ n, tc =>
      if (tc.findFunctionDef h.name).isSome then throw "duplicate function definition."
      else collectDeclarations n { tc with functions := tc.functions ++ [h] }
  | .leaf (.structDeclaration name fields) n, tc =>
      if ¬ fields.Nodup then throw "duplicate struct field name."
      else if tc.structs.contains name then throw "duplicate struct definition."
      else collectDeclarations n { tc with structs := tc.structs ++ [name] }
  | .leaf _ n, tc => collectDeclarations n tc
  | .one _ _ n, tc => collectDeclarations n tc
  | .two _ _ _ n, tc => collectDeclarations n tc
  | .ifStatement _ _ _ n, tc => collectDeclarations n tc

/-- `statement_list_returns`. -/
@[simp] def statementListReturns : AstNode → Bool
  | .null => false
  | .one .returnStatement _ _ => true
  | .one .unsafeBlock body n => statementListReturns body || statementListReturns n
  | .ifStatement _ t e n =>
      (e != .null && statementListReturns t && statementListReturns e) || statementListReturns n
  | .leaf _ n => statementListReturns n
  | .one _ _ n => statementListReturns n
  | .two _ _ _ n => statementListReturns n

/-- The condition of an `if` or a `while`. -/
def checkCondition (keyword : String) (t : TypeKind) : Check Unit :=
  if t = .void then throw "void function call cannot be used as a control-flow condition."
  else if t ≠ .bool ∧ t ≠ .unknown then throw s!"{keyword} condition must be boolean."
  else pure ()

/-- The declared type of a `let`. -/
def checkDeclared (tc : TypeChecker) (name text : String) (shadowsOuter : Bool) (valueType : TypeKind) :
    Check TypeChecker := do
  let declaredType := typeFromName text
  failIf (declaredType = .undeclared ∨ declaredType = .void) (snprintf 256 s!"unknown type '{text}'.")
  failIf ((tc.findSymbol name).isSome ∧ ¬ shadowsOuter)
    "'let' cannot redeclare a variable in the same scope."
  failIf (¬ typeCompatible declaredType valueType)
    (snprintf 256
      (s!"initializer for '{name}' expects {typeName declaredType} " ++
        s!"but received {typeName valueType}."))
  if shadowsOuter then pure (tc.addSymbol name declaredType true)
  else tc.setSymbol name declaredType true

namespace TypeChecker

/-- `shadows_outer`: an annotated declaration hides a symbol of an enclosing scope. -/
def shadowsOuter (tc : TypeChecker) (name : String) (declared : Option String) : Bool :=
  declared.isSome && (tc.findSymbol name).any fun s => decide (s.scopeDepth < tc.scopeDepth)

/-- `is_reassignment`. -/
def isReassignment (tc : TypeChecker) (name : String) (declared : Option String) : Bool :=
  (tc.findSymbol name).isSome && !tc.shadowsOuter name declared

end TypeChecker

/-- An unannotated assignment must suit a variable that was declared with a type. -/
def checkReassigned (tc : TypeChecker) (name : String) (valueType : TypeKind) : Check Unit :=
  match tc.findSymbol name with
  | some s =>
      failIf (s.explicitType ∧ ¬ typeCompatible s.type valueType)
        (snprintf 192
          (s!"assignment target has type {typeName s.type} " ++
            s!"but assigned value has type {typeName valueType}."))
  | none => pure ()

/-- The `AST_VARIABLE_DECLARATION` case of `check_statements`, after its value was typed. -/
def checkDeclaration (tc : TypeChecker) (name : String) (declared : Option String)
    (valueType : TypeKind) : Check TypeChecker := do
  failIf (valueType = .void) "void function call cannot initialize a variable."
  match declared with
  | some text => checkDeclared tc name text (tc.shadowsOuter name declared) valueType
  | none => do
      checkReassigned tc name valueType
      tc.setSymbol name valueType false

/-- The `AST_ASSIGNMENT` case. -/
def checkAssignment (target : AstNode) (t v : TypeKind) : Check Unit :=
  if v = .void then throw "void function call cannot be assigned as a value."
  else if t ≠ .unknown ∧ t ≠ .undeclared ∧ ¬ typeCompatible t v ∧
      ¬ (isStringIndexExpr target t && v == .int) then
    throw (snprintf 192
      s!"assignment target has type {typeName t} but assigned value has type {typeName v}.")
  else pure ()

/-- The `AST_RETURN_STATEMENT` case. -/
def checkReturn (tc : TypeChecker) (hasValue : Bool) (actual : TypeKind) : Check Unit :=
  if tc.expectedReturn = .void then
    if hasValue then throw "void function cannot return a value." else pure ()
  else if !hasValue then throw "non-void function must return a value."
  else if actual = .void then throw "void function call cannot be returned as a value."
  else if tc.expectedReturn ≠ .unknown ∧ ¬ typeCompatible tc.expectedReturn actual then
    throw (snprintf 192
      (s!"function return type mismatch: expected {typeName tc.expectedReturn} " ++
        s!"but returned {typeName actual}."))
  else pure ()

/-- The parameters of a function, `seen` being the names before. -/
def declareParameters : List (String × Option String) → List String → TypeChecker → Check TypeChecker
  | [], _, tc => pure tc
  | (name, declared) :: ps, seen, tc => do
      failIf (name ∈ seen) "duplicate function parameter name."
      let type := (declared.map typeFromName).getD .unknown
      failIf (type = .undeclared ∨ type = .void) "function declares an invalid parameter type."
      declareParameters ps (seen ++ [name]) ((tc.addSymbol name type (type != .unknown)).logSymbol name)

/-- What a function's body is checked under. -/
def enterFunction (tc : TypeChecker) (h : FunctionHeader) : TypeChecker :=
  { tc with
    functionNamespace :=
      match beforeSeparator h.name.toList with
      | some ns => some (String.ofList ns)
      | none => tc.functionNamespace
    scopeDepth := tc.scopeDepth + 1
    loopDepth := 0
    inFunction := true
    expectedReturn := (h.returnType.map typeFromName).getD .unknown }

/-- The state after a block that began in `tc` and ended in `inner`: its symbols are gone, its updates to
    older ones stay. -/
def leaveBlock (tc inner : TypeChecker) : TypeChecker :=
  { tc with
    symbols := (inner.discardSymbolsTo tc.symbols.length).symbols
    nextSerial := inner.nextSerial
    log := inner.log }

/-- `check_statements` on a statement without children. -/
def checkLeaf (tc : TypeChecker) : AstLeaf → Check Unit
  | .asmStatement _ _ =>
      failIf (tc.unsafeDepth = 0) "inline assembly may only be used inside an unsafe block."
  | .breakStatement => failIf (tc.loopDepth = 0) "break used outside a loop."
  | .continueStatement => failIf (tc.loopDepth = 0) "continue used outside a loop."
  | _ => pure ()

/-- `check_statements`, with the tree it leaves behind. -/
def checkStatements : AstNode → TypeChecker → Check (TypeChecker × AstNode)
  | .null, tc => pure (tc, .null)
  | .leaf kind n, tc => do
      checkLeaf tc kind
      let r ← checkStatements n tc
      pure (r.1, .leaf kind r.2)
  | .one (.variableDeclaration name declared _) value n, tc => do
      let reassigned := tc.isReassignment name declared
      let t ← exprType tc value
      let tc₁ ← checkDeclaration (tc.logExpr value) name declared t
      let r ← checkStatements n (tc₁.logSymbol name)
      pure (r.1, .one (.variableDeclaration name declared reassigned) (resolveCalls tc value) r.2)
  | .one .printStatement e n, tc => do
      let t ← exprType tc e
      failIf (t = .void) "void function call cannot be printed as a value."
      let r ← checkStatements n (tc.logExpr e)
      pure (r.1, .one .printStatement (resolveCalls tc e) r.2)
  | .one .returnStatement e n, tc => do
      failIf (tc.inFunction = false) "return used outside a function."
      let t ← exprType tc e
      checkReturn tc (e != .null) t
      let r ← checkStatements n (tc.logExpr e)
      pure (r.1, .one .returnStatement (resolveCalls tc e) r.2)
  | .one (.functionCall name) args n, tc => do
      let call := AstNode.one (.functionCall name) args .null
      let _ ← exprType tc call
      let r ← checkStatements n (tc.logExpr call)
      pure (r.1, .one (.functionCall (tc.resolveName name args.length)) (resolveCalls tc args) r.2)
  | .one .unsafeBlock body n, tc => do
      let inner ← checkStatements body
        { tc with scopeDepth := tc.scopeDepth + 1, unsafeDepth := tc.unsafeDepth + 1 }
      let r ← checkStatements n (leaveBlock tc inner.1)
      pure (r.1, .one .unsafeBlock inner.2 r.2)
  | .one (.functionDeclaration h) body n, tc => do
      let tc₁ := enterFunction tc h
      failIf (h.returnType.isSome ∧ tc₁.expectedReturn = .undeclared)
        "function declares an unknown return type."
      let tc₂ ← declareParameters h.parameters [] tc₁
      let inner ← checkStatements body tc₂
      failIf (tc₁.expectedReturn ≠ .unknown ∧ tc₁.expectedReturn ≠ .void ∧ ¬ statementListReturns body)
        (snprintf 320
          (s!"typed function '{h.name}' returning {typeName tc₁.expectedReturn} " ++
            "does not return a value on every path."))
      let r ← checkStatements n (leaveBlock tc inner.1)
      pure (r.1, .one (.functionDeclaration h) inner.2 r.2)
  | .one kind child n, tc => do
      let r ← checkStatements n tc
      pure (r.1, .one kind child r.2)
  | .two .assignment target value n, tc => do
      let t ← exprType tc target
      let v ← exprType tc value
      checkAssignment target t v
      let r ← checkStatements n ((tc.logExpr target).logExpr value)
      pure (r.1, .two .assignment (resolveCalls tc target) (resolveCalls tc value) r.2)
  | .two .whileStatement condition body n, tc => do
      let t ← exprType tc condition
      checkCondition "while" t
      let tc₁ := tc.logExpr condition
      let inner ← checkStatements body
        { tc₁ with scopeDepth := tc.scopeDepth + 1, loopDepth := tc.loopDepth + 1 }
      let r ← checkStatements n (leaveBlock tc₁ inner.1)
      pure (r.1, .two .whileStatement (resolveCalls tc condition) inner.2 r.2)
  | .two kind a b n, tc => do
      let r ← checkStatements n tc
      pure (r.1, .two kind a b r.2)
  | .ifStatement condition t e n, tc => do
      let ty ← exprType tc condition
      checkCondition "if" ty
      let before := tc.logExpr condition
      let first ← checkStatements t { before with scopeDepth := tc.scopeDepth + 1 }
      let afterThen := leaveBlock before first.1
      let restored := afterThen.restoreSymbols before.symbols
      let second ← checkStatements e { restored with scopeDepth := tc.scopeDepth + 1 }
      let afterElse := leaveBlock restored second.1
      let r ← checkStatements n (afterElse.mergeBranchSymbols before.symbols afterThen.symbols)
      pure (r.1, .ifStatement (resolveCalls tc condition) first.2 second.2 r.2)

/-- `TypeChecker tc = {0}`. -/
def TypeChecker.initial : TypeChecker where
  symbols := []
  functions := []
  structs := []
  expectedReturn := .undeclared
  inFunction := false
  scopeDepth := 0
  unsafeDepth := 0
  loopDepth := 0
  functionNamespace := none
  nextSerial := 0
  log := []

/-- What `vnt_typecheck` makes of a program: the statements it leaves in the tree, and the final state. -/
def checkProgram (statements : AstNode) : Check (TypeChecker × AstNode) := do
  let tc ← collectDeclarations statements .initial
  checkStatements statements tc

/-- `vnt_typecheck`, with the rewritten tree. -/
def vntTypecheck : AstNode → Check AstNode
  | .one .program statements n => do
      let r ← checkProgram statements
      pure (.one .program r.2 n)
  | _ => throw ""

end Vnt
