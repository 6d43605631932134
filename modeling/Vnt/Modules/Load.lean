import Vnt.Front.Chars

/-!
# `Modules.Load` — the module loader

`vnt_load_project_source` reads the entry file line by line, copies what is not an import and replaces an import
line by the lines of the imported file. The loader keeps two lists: `paths`, every file it has started, and
`activePaths`, the files whose lines are being copied now. A file that is active is a circular import; one that
is only in `paths` has been copied already and is skipped.

A text is the list of its characters, a path too; the end of the list stands for the terminating NUL. The
operating system is a `FileSystem`: what `fopen` and `fread` find, what `realpath` answers and the environment
variable with the search path. `load_recursive` calls itself through the lines of a file, so it runs with fuel.
-/

namespace Vnt.Modules

/-- The text of a C string. -/
abbrev Text := List Char

/-- What the loader asks the operating system. -/
structure FileSystem where
  /-- The bytes of a file, when it can be opened. -/
  contents : Text → Option Text
  /-- `realpath`, which fails for a path that names nothing. -/
  realpath : Text → Option Text
  /-- The value of `VNT_MODULE_PATH`. -/
  modulePath : Option Text

/-- The errors of the loader, with the path each one prints. -/
inductive ModuleError where
  | couldNotOpen (path : Text)
  | circularImport (path : Text)
  | nestingExceeds (path : Text)
  | pathTooLong
  | malformedImport (path : Text)
  | expectedExportedName (path : Text)
  | onlyFunctionsExported (path : Text)
  deriving DecidableEq, Repr

def vntModuleMaxImportDepth : Nat := 64

/-- The line each error prints. -/
def ModuleError.message : ModuleError → String
  | .couldNotOpen path => "Module error: could not open '" ++ String.ofList path ++ "'."
  | .circularImport path => "Module error: circular import detected at '" ++ String.ofList path ++ "'."
  | .nestingExceeds path =>
      "Module error: import nesting exceeds " ++ toString vntModuleMaxImportDepth ++ " files at '" ++
        String.ofList path ++ "'."
  | .pathTooLong => "Module error: path is too long."
  | .malformedImport path => "Module error: malformed import directive in '" ++ String.ofList path ++ "'."
  | .expectedExportedName path => "Module error: expected exported function name in '" ++ String.ofList path ++ "'."
  | .onlyFunctionsExported path =>
      "Module error: only functions can currently be exported in '" ++ String.ofList path ++ "'."

/-- Why a run of the loader stops. -/
inductive Halt where
  | outOfFuel
  | failed (e : ModuleError)
  deriving DecidableEq, Repr

/-! ## Words -/

/-- `while (isspace(*line)) line++`. -/
def skipSpaces (line : Text) : Text := line.dropWhile isSpace

/-- `strncmp(line, word, strlen(word)) == 0`, with what follows the word. -/
def stripWord (word : String) (line : Text) : Option Text :=
  if word.toList.isPrefixOf line then some (line.drop word.length) else none

/-! ## Paths -/

namespace FileSystem

variable (fs : FileSystem)

def normalizePath (path : Text) : Text := (fs.realpath path).getD path

def fileExists (path : Text) : Bool := (fs.contents path).isSome

/-- The buffer `read_file` returns, read as a C string: a NUL in the file ends it. -/
def readFile (path : Text) : Except ModuleError Text :=
  match fs.contents path with
  | none => .error (.couldNotOpen path)
  | some bytes => .ok (bytes.takeWhile (· ≠ '\x00'))

end FileSystem

def isSeparator (c : Char) : Bool := c = '/' || c = '\\'

/-- `directory_of`: the path up to its last separator; `none` when that does not fit its buffer. -/
def directoryOf (path : Text) : Option Text :=
  match path.reverse.dropWhile (! isSeparator ·) with
  | [] => some ['.']
  | _ :: directory => if directory.length ≥ 4096 then none else some directory.reverse

def joinPath (directory name : Text) : Text :=
  match directory.getLast? with
  | none => name
  | some c => if isSeparator c then directory ++ name else directory ++ '/' :: name

/-- The entries of a search path. -/
def searchRoots : Text → List Text
  | [] => [[]]
  | c :: cs =>
      if c = ':' then [] :: searchRoots cs
      else
        match searchRoots cs with
        | [] => [[c]]
        | root :: roots => (c :: root) :: roots

/-- `resolve_module_path`: relative to the importing module first, then the entries of `VNT_MODULE_PATH`. -/
def resolveModulePath (fs : FileSystem) (directory module : Text) : Text :=
  if fs.fileExists (joinPath directory module) then fs.normalizePath (joinPath directory module)
  else
    let usable := (searchRoots (fs.modulePath.getD [])).filter fun root => 0 < root.length ∧ root.length < 4096
    match usable.find? fun root => fs.fileExists (joinPath root module) with
    | some root => fs.normalizePath (joinPath root module)
    | none => fs.normalizePath module

/-! ## Lines -/

/-- The lines of a text, as the loop over `strchr(cursor, '\n')` cuts it: no empty line after a final newline. -/
def sourceLines : Text → List Text
  | [] => []
  | c :: cs =>
      if c = '\n' then [] :: sourceLines cs
      else
        match sourceLines cs with
        | [] => [[c]]
        | line :: lines => (c :: line) :: lines

def beginsImportDirective (line : Text) : Bool :=
  match stripWord "import" (skipSpaces line) with
  | none => false
  | some [] => true
  | some (c :: _) => isSpace c

/-- The end of an import line: blanks, then nothing or a comment. -/
def endsLine (line : Text) : Bool :=
  match skipSpaces line with
  | [] => true
  | c :: _ => c = '#'

/-- The alias after the quoted module name of an import line. -/
def importAlias (line : Text) : Option Text :=
  match skipSpaces line with
  | [] => some []
  | '#' :: _ => some []
  | line =>
      match stripWord "as" line with
      | some (c :: rest) =>
          if isSpace c then
            let name := skipSpaces rest
            let aliasName := name.takeWhile isNameChar
            match name with
            | [] => none
            | d :: _ =>
                if ! isNameStart d then none
                else if aliasName.length ≥ 256 then none
                else if endsLine (name.dropWhile isNameChar) then some aliasName
                else none
          else none
      | _ => none

/-- `is_import_line`: the module and the alias, empty when there is none. -/
def isImportLine (line : Text) : Option (Text × Text) :=
  match stripWord "import" (skipSpaces line) with
  | none => none
  | some [] => none
  | some (c :: rest) =>
      if isSpace c || c = '"' then
        match skipSpaces (c :: rest) with
        | '"' :: quoted =>
            let module := quoted.takeWhile (· ≠ '"')
            if module.length ≥ 4096 then none
            else
              match quoted.dropWhile (· ≠ '"') with
              | [] => none
              | _ :: line => (importAlias line).map fun aliasName => (module, aliasName)
        | _ => none
      else none

/-- What a line that is no import contributes: without its leading blanks, and an exported function under the
    name the importer gives it. -/
def emitLine (path : Text) (namespaceName : Option Text) (line : Text) : Except ModuleError Text :=
  let body := skipSpaces line
  let exported :=
    match stripWord "export unsafe fun " body with
    | some declaration => some ("unsafe fun ", declaration)
    | none => (stripWord "export fun " body).map fun declaration => ("fun ", declaration)
  match exported with
  | some (declarationPrefix, declaration) =>
      match declaration with
      | [] => .error (.expectedExportedName path)
      | c :: _ =>
          if isNameStart c then
            .ok (declarationPrefix.toList ++ (match namespaceName with
              | none => []
              | some aliasName => aliasName ++ ['_', '_']) ++ declaration)
          else .error (.expectedExportedName path)
  | none =>
      match stripWord "export " body with
      | some _ => .error (.onlyFunctionsExported path)
      | none => .ok body

/-! ## The loader -/

structure Loader where
  /-- Every file started so far, in the order of their first import. -/
  paths : List Text
  /-- The files being copied, the innermost last. -/
  activePaths : List Text
  /-- The text so far; `none` as long as nothing was appended. -/
  output : Option Text
  deriving DecidableEq, Repr

namespace Loader

def seen (l : Loader) (path : Text) : Bool := path ∈ l.paths

def isActive (l : Loader) (path : Text) : Bool := path ∈ l.activePaths

def pushActive (l : Loader) (path : Text) : Loader := { l with activePaths := l.activePaths ++ [path] }

def popActive (l : Loader) : Loader := { l with activePaths := l.activePaths.dropLast }

def remember (l : Loader) (path : Text) : Loader :=
  if l.seen path then l else { l with paths := l.paths ++ [path] }

def appendText (l : Loader) (text : Text) : Loader := { l with output := some (l.output.getD [] ++ text) }

end Loader

/-- A failed check ends the run. -/
def require {α : Type} (r : Except ModuleError α) : Except Halt α :=
  match r with
  | .ok a => .ok a
  | .error e => .error (.failed e)

/-- One round of the loop over the lines: `recurse` is the call for an import. -/
def loadLine (fs : FileSystem) (recurse : Loader → Text → Option Text → Except Halt Loader)
    (path directory : Text) (namespaceName : Option Text) (l : Loader) (line : Text) : Except Halt Loader :=
  match isImportLine line with
  | some (module, aliasName) =>
      recurse l (resolveModulePath fs directory module) (if aliasName = [] then none else some aliasName)
  | none =>
      if beginsImportDirective line then .error (.failed (.malformedImport path))
      else do
        let text ← require (emitLine path namespaceName line)
        .ok ((l.appendText text).appendText ['\n'])

def loadLines (fs : FileSystem) (recurse : Loader → Text → Option Text → Except Halt Loader)
    (path directory : Text) (namespaceName : Option Text) : Loader → List Text → Except Halt Loader
  | l, [] => .ok l
  | l, line :: lines => do
      let l ← loadLine fs recurse path directory namespaceName l line
      loadLines fs recurse path directory namespaceName l lines

@[simp] def loadRecursive (fs : FileSystem) : Nat → Loader → Text → Option Text → Except Halt Loader
  | 0, _, _, _ => .error .outOfFuel
  | fuel + 1, l, path, namespaceName =>
      if l.isActive path then .error (.failed (.circularImport path))
      else if l.seen path then .ok l
      else if l.activePaths.length ≥ vntModuleMaxImportDepth then .error (.failed (.nestingExceeds path))
      else do
        let l := (l.remember path).pushActive path
        let source ← require (fs.readFile path)
        match directoryOf path with
        | none => .error (.failed .pathTooLong)
        | some directory =>
            let l ← loadLines fs (loadRecursive fs fuel) path directory namespaceName l (sourceLines source)
            .ok l.popActive

/-- `vnt_load_project_source`: the flattened text, or `none` for `NULL`. -/
def vntLoadProjectSource (fs : FileSystem) (fuel : Nat) (entryPath : Text) : Except Halt (Option Text) :=
  match loadRecursive fs fuel ⟨[], [], none⟩ (fs.normalizePath entryPath) none with
  | .ok l => .ok l.output
  | .error (.failed _) => .ok none
  | .error .outOfFuel => .error .outOfFuel

end Vnt.Modules
