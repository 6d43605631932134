import Vnt.Lib.Collect
import Vnt.Modules.Load

/-!
# `VBuild.Imports` — lines, and the import graph in them

`tools/vbuild.c` reads its three kinds of text with `fgets` into a buffer of 4096 bytes, so a line comes in one chunk or
in several. A string is the list of its characters, and its end is the terminating NUL.
-/

namespace Vnt.VBuild

open Modules

def lineCap : Nat := 4096

def pathCap : Nat := 2048

/-- What one `fgets` leaves in the buffer, and whether it met the end of the file. -/
structure Chunk where
  buffer : Text
  eof : Bool
  deriving DecidableEq, Repr

/-- The rest of the chunks, where the buffer holds `held`, the last character first, and has room for `room` more. -/
def chunksFrom (held : Text) (room : Nat) : Text → List Chunk
  | [] => if held = [] then [] else [⟨held.reverse, true⟩]
  | c :: rest =>
      if c = '\n' ∨ room ≤ 1 then ⟨(c :: held).reverse, false⟩ :: chunksFrom [] (lineCap - 1) rest
      else chunksFrom (c :: held) (room - 1) rest

/-- The chunks of a file. -/
def chunks (contents : Text) : List Chunk := chunksFrom [] (lineCap - 1) contents

/-- The buffer as a C string. -/
def Chunk.line (chunk : Chunk) : Text := chunk.buffer.takeWhile (· ≠ '\x00')

/-- `!strchr(line, '\n') && !feof(f)`. -/
def Chunk.tooLong (chunk : Chunk) : Bool := ! chunk.line.contains '\n' && ! chunk.eof

def trim (s : Text) : Text := (s.reverse.dropWhile isSpace).reverse.dropWhile isSpace

/-- `strstr`: what stands before the first occurrence of `needle` and what after it. -/
def splitAtFirst (needle : Text) : Text → Option (Text × Text)
  | [] => if needle = [] then some ([], []) else none
  | c :: rest =>
      if needle.isPrefixOf (c :: rest) then some ([], (c :: rest).drop needle.length)
      else (splitAtFirst needle rest).map fun (before, after) => (c :: before, after)

/-- The tokens of `strchr(token, ',')`. -/
def splitCommas : Text → List Text
  | [] => [[]]
  | c :: rest =>
      if c = ',' then [] :: splitCommas rest
      else
        match splitCommas rest with
        | [] => [[c]]
        | token :: tokens => (c :: token) :: tokens

/-! ## Names and paths -/

def safeFilename (s : Text) : Bool := s ≠ [] && ! s.contains '/' && ! s.contains '\\' && s ≠ ['.'] && s ≠ ['.', '.']

/-- The components of a path. -/
def components : Text → List Text
  | [] => [[]]
  | c :: rest =>
      if isSeparator c then [] :: components rest
      else
        match components rest with
        | [] => [[c]]
        | component :: more => (c :: component) :: more

def safeRelativePath (s : Text) : Bool :=
  match s with
  | [] => false
  | c :: _ =>
      ! isSeparator c && ! s.contains ':' && (components s).all fun component => component ≠ ['.', '.'] && component ≠ ['.']

/-- `parse_string_call`: the string of a call such as `local("libs")`. -/
def parseStringCall (line : Text) (function : String) (cap : Nat) : Option Text :=
  match stripWord function (skipSpaces line) with
  | some ('(' :: rest) =>
      match skipSpaces rest with
      | '"' :: quoted =>
          let value := quoted.takeWhile (· ≠ '"')
          if value.contains '\\' || value.length ≥ cap then none
          else
            match quoted.dropWhile (· ≠ '"') with
            | [] => none
            | _ :: rest =>
                match skipSpaces rest with
                | ')' :: rest => if endsLine rest then (if value = [] then none else some value) else none
                | _ => none
      | _ => none
  | _ => none

/-!
## The import graph that vbuild sees

`collect_import_graph` reads a source through `fgets`, looks for import lines with a scanner of its own and resolves a
module first beside its importer and then in the repositories. What it has come to is `imported_files`; a failure at any
point ends the build. The compiler finds the repositories in `VNT_MODULE_PATH`.
-/

open Modules Lib

/-- What vbuild asks about a file: what `fopen` and `fread` find, and whether `is_regular_file` holds. -/
structure Files where
  contents : Text → Option Text
  regular : Text → Bool

/-- The directory vbuild runs in and the repositories of the script. -/
structure Project where
  projectRoot : Text
  repositories : List Text
  deriving DecidableEq, Repr

def importCap : Nat := 256

/-- The path that the system finds for `path` in the project. -/
def fullPath (projectRoot path : Text) : Text := if path.head? = some '/' then path else projectRoot ++ '/' :: path

def absolutePath (projectRoot path : Text) : Except String Text :=
  if (fullPath projectRoot path).length < pathCap then .ok (fullPath projectRoot path)
  else .error ("vbuild: path is too long: " ++ String.ofList path)

/-- The loop of `configure_module_path` over the repositories. -/
def appendRoots (projectRoot used : Text) : List Text → Except String Text
  | [] => .ok used
  | repository :: rest => do
      let root ← absolutePath projectRoot repository
      let used := used ++ (if used = [] then [] else [':']) ++ root
      if used.length < pathCap * 4 then appendRoots projectRoot used rest
      else .error "vbuild: combined repository path is too long."

/-- The value of `VNT_MODULE_PATH`. -/
def Project.searchPath (project : Project) : Except String Text :=
  appendRoots project.projectRoot [] project.repositories

/-! ## Import lines -/

/-- The text up to the closing quote, a backslash giving the character behind it. -/
def unquote : Text → Option Text
  | [] => none
  | '\\' :: c :: rest => (unquote rest).map (c :: ·)
  | c :: rest => if c = '"' then some [] else (unquote rest).map (c :: ·)

/-- The module that a line imports. -/
def importedModule (line : Text) : Option Text :=
  match stripWord "import" (skipSpaces line) with
  | some (c :: rest) =>
      if isSpace c then
        match skipSpaces rest with
        | '"' :: quoted =>
            match unquote quoted with
            | some module => if module = [] ∨ module.length + 1 ≥ pathCap then none else some module
            | none => none
        | _ => none
      else none
  | _ => none

/-! ## Modules -/

/-- Where a module stands beside its importer. -/
def besideImporter (importer module : Text) : Text :=
  match importer.reverse.dropWhile (! isSeparator ·) with
  | [] => module
  | _ :: directory => directory.reverse ++ '/' :: module

/-- The loop over the repositories. -/
def resolveInRepositories (files : Files) (projectRoot module : Text) : List Text → Option Text
  | [] => none
  | repository :: rest => do
      let root ← (absolutePath projectRoot repository).toOption
      let candidate := root ++ '/' :: module
      if candidate.length < pathCap ∧ files.regular candidate = true then some candidate
      else resolveInRepositories files projectRoot module rest

def resolveImportForBuild (files : Files) (project : Project) (importer module : Text) : Option Text :=
  let candidate := besideImporter importer module
  if candidate.length < pathCap ∧ files.regular candidate = true then some candidate
  else resolveInRepositories files project.projectRoot module project.repositories

/-- What the import lines of a source resolve to; `none` when it cannot be read. -/
def importsOf (files : Files) (project : Project) (path : Text) : Option (List (Option Text)) :=
  if path.length < pathCap then
    (files.contents path).map fun contents =>
      (chunks contents).filterMap fun chunk =>
        (importedModule chunk.line).map (resolveImportForBuild files project path)
  else none

/-- `imported_files`, when `collect_import_graph` returns 1. -/
def collectImportGraph (files : Files) (project : Project) (source : Text) : Option (List Text) :=
  collect (importsOf files project) importCap (importCap + 1) source []

/-- An import line of `path` leads to `target`. -/
def Follows (files : Files) (project : Project) : Text → Text → Prop := Goes (importsOf files project)

end Vnt.VBuild
