import Mathlib.Algebra.Group.Nat.Defs
import Mathlib.Data.List.TakeWhile
import Vnt.VBuild.Imports

/-!
# `VBuild.Disk` — the files that vbuild works on

A disk gives the file at a path. vbuild asks it through `stat`, `lstat`, `access` and `fopen`, and changes it through
`remove`, `rename` and `fopen` for writing.
-/

namespace Vnt.VBuild

open Modules

/-- What `stat` and `lstat` say about a path. -/
inductive Kind where
  /-- A regular file. -/
  | regular
  /-- A regular file in a directory that a symbolic link leads to. -/
  | throughLink
  /-- A symbolic link to a regular file. -/
  | link
  | directory
  | other
  deriving DecidableEq, Repr

/-- A file: its bytes, whether `fopen` opens it, its time, and whether `access` lets it be executed. -/
structure File where
  bytes : Text
  readable : Bool
  mtime : Int
  executable : Bool
  kind : Kind
  deriving DecidableEq, Repr

abbrev Disk := Text → Option File

namespace Disk

variable (disk : Disk)

/-- `is_regular_file`: no part of the path is a symbolic link. -/
def isRegularFile (path : Text) : Bool := ((disk path).map File.kind) = some .regular

def isDirectory (path : Text) : Bool := ((disk path).map File.kind) = some .directory

/-- The bytes of a file that is no directory. -/
def bytesAt (path : Text) : Option Text :=
  (disk path).bind fun file => if file.kind = .directory then none else some file.bytes

/-- What `fopen` and `fread` find. -/
def contents (path : Text) : Option Text :=
  (disk path).bind fun file => if file.readable then disk.bytesAt path else none

def files : Files := ⟨disk.contents, disk.isRegularFile⟩

/-- `artifact_is_usable`. -/
def artifactIsUsable (path target : Text) : Bool :=
  match disk path with
  | none => false
  | some file =>
      (file.kind = .regular || file.kind = .throughLink) &&
        (! (target = "exe".toList || target = "elf".toList) || file.executable) && file.bytes ≠ []

/-- `compiler_file_is_usable`. -/
def compilerFileIsUsable (path : Text) : Bool :=
  match disk path with
  | none => false
  | some file => (file.kind = .regular || file.kind = .throughLink || file.kind = .link) && file.executable

/-- The disk after `remove` or after a file was written. -/
def set (path : Text) (file : Option File) : Disk := Function.update disk path file

/-- The disk after `rename`. -/
def rename (temporary destination : Text) : Disk := (disk.set destination (disk temporary)).set temporary none

variable {disk} {path other : Text} {file : Option File}

@[simp] theorem set_same : disk.set path file path = file := Function.update_self _ _ _

theorem set_other (h : other ≠ path) : disk.set path file other = disk other := Function.update_of_ne h _ _

theorem rename_destination {temporary destination : Text} (h : destination ≠ temporary) :
    disk.rename temporary destination destination = disk temporary := by
  rw [rename, set_other h, set_same]

theorem rename_other {temporary destination : Text} (htemporary : other ≠ temporary) (hdestination : other ≠ destination) :
    disk.rename temporary destination other = disk other := by
  rw [rename, set_other htemporary, set_other hdestination]

theorem bytesAt_congr {disk' : Disk} (h : disk' path = disk path) : disk'.bytesAt path = disk.bytesAt path := by
  rw [bytesAt, bytesAt, h]

theorem bytesAt_rename {temporary destination : Text} (hne : destination ≠ temporary) :
    (disk.rename temporary destination).bytesAt destination = disk.bytesAt temporary := by
  rw [bytesAt, bytesAt, rename_destination hne]

/-- A usable artifact has bytes. -/
theorem bytesAt_of_usable {target : Text} (h : disk.artifactIsUsable path target = true) :
    ∃ bytes, disk.bytesAt path = some bytes := by
  rw [artifactIsUsable] at h
  rw [bytesAt]
  cases hfile : disk path with
  | none =>
      rw [hfile] at h
      cases h
  | some file =>
      rw [hfile] at h
      simp only [Bool.and_eq_true, Bool.or_eq_true, decide_eq_true_eq] at h
      refine ⟨file.bytes, if_neg fun hkind => ?_⟩
      rcases h.1.1 with hregular | hregular
      · rw [hregular] at hkind
        cases hkind
      · rw [hregular] at hkind
        cases hkind

end Disk

/-- `remove`: a file is gone afterwards, a directory may stay. -/
inductive Removes (path : Text) (disk : Disk) : Disk → Prop where
  | gone : Removes path disk (disk.set path none)
  | directory {file : File} : disk path = some file → file.kind = .directory → Removes path disk disk

theorem Removes.other {path other : Text} {disk disk' : Disk} (h : Removes path disk disk') (hother : other ≠ path) :
    disk' other = disk other := by
  cases h with
  | gone => exact Disk.set_other hother
  | directory => rfl

/-- A file holds what it must hold, if it is there. -/
def Holds (path bytes : Text) (disk : Disk) : Prop := ∀ found, disk.bytesAt path = some found → found = bytes

theorem holds_of_file {path bytes : Text} {disk : Disk} (h : ∀ file, disk path = some file → file.bytes = bytes) :
    Holds path bytes disk := by
  intro found hfound
  obtain ⟨file, hfile, hbytes⟩ := Option.bind_eq_some_iff.mp hfound
  split at hbytes
  · cases hbytes
  · exact (Option.some.inj hbytes).symm.trans (h file hfile)

end Vnt.VBuild

/-!
## What the manifest remembers

The fingerprint is the 64-bit FNV-1a hash over the paths and the bytes of the inputs, printed as 16 hexadecimal digits.
It stands behind a version in `<artifact>.vbuild-inputs`, and the cache is asked whether that line is the current one.
-/

namespace Vnt.VBuild

open Modules

/-- What goes into a fingerprint: a file, or the name of a compiler that is no file. -/
inductive Input where
  | file (path contents : Text)
  | command (name : Text)
  deriving DecidableEq, Repr

/-- What `fingerprint_bytes` is called with for an input. -/
def Input.hashed : Input → Text
  | .file path contents => path ++ '\x00' :: contents ++ ['\xff']
  | .command name => name

/-- `fingerprint_bytes`. -/
def fingerprintBytes (hash : BitVec 64) (data : Text) : BitVec 64 :=
  data.foldl (fun hash c => (hash ^^^ BitVec.ofNat 64 (c.toNat % 256)) * 1099511628211#64) hash

/-- `%016llx`. -/
def hexDigits (hash : BitVec 64) : Text :=
  (List.range 16).map fun i => Nat.digitChar (hash.toNat / 16 ^ (15 - i) % 16)

def fingerprint (inputs : List Input) : Text :=
  hexDigits (fingerprintBytes 14695981039346656037#64 (inputs.flatMap Input.hashed))

/-! ## The inputs -/

def hostedInputs : List Text :=
  ["src/compiler/native_runtime.c".toList, "src/compiler/native_runtime.h".toList, "src/compiler/native_net.c".toList,
    "src/compiler/native_async_net.c".toList]

def elfInputs : List Text := ["freestanding/x86_64.ld".toList]

/-- The files of the toolchain that the target is built with. -/
def targetInputs (target : Text) : List Text :=
  if target = "exe".toList then hostedInputs else if target = "elf".toList then elfInputs else []

def fingerprintFile (projectRoot : Text) (disk : Disk) (path : Text) : Except String Input :=
  if disk.isRegularFile (fullPath projectRoot path) then
    match disk.contents (fullPath projectRoot path) with
    | some contents => .ok (.file path contents)
    | none => .error ("vbuild: cannot open fingerprint input '" ++ String.ofList path ++ "'")
  else .error ("vbuild: fingerprint input is not a readable regular file: " ++ String.ofList path)

/-- A compiler that is no file goes into the fingerprint by its name. -/
def fingerprintCompiler (projectRoot : Text) (disk : Disk) (compiler : Text) : Except String Input :=
  if (disk compiler).isSome then fingerprintFile projectRoot disk compiler else .ok (.command compiler)

/-- What `compute_fingerprint` reads, in its order. -/
def fingerprintInputs (projectRoot : Text) (disk : Disk) (source compiler toolchain target : Text)
    (imported dependencies : List Text) : Except String (List Input) := do
  let configured ←
    [source, "vbuild.properties".toList, "build.vbuild".toList].mapM (fingerprintFile projectRoot disk)
  let tool ← fingerprintCompiler projectRoot disk compiler
  let graph ← imported.mapM (fingerprintFile projectRoot disk)
  let modules ← dependencies.mapM (fingerprintFile projectRoot disk)
  let runtime ← (targetInputs target).mapM fun input =>
    let path := toolchain ++ '/' :: input
    if path.length < pathCap then fingerprintFile projectRoot disk path
    else .error "vbuild: build input path is too long."
  .ok (configured ++ tool :: graph ++ modules ++ runtime)

/-! ## The manifest -/

def manifestPath (output : Text) : Text := output ++ ".vbuild-inputs".toList

def manifestLine (fingerprint : Text) : Text := "vbuild-inputs-v1 ".toList ++ fingerprint

/-- What `fgets` reads when there is room for `room` characters. -/
def fgets : Nat → Text → Text
  | _, [] => []
  | 0, _ => []
  | room + 1, c :: rest => if c = '\n' then [c] else c :: fgets room rest

/-- The comparison of a manifest's text with the current fingerprint. -/
def manifestSays (contents fingerprint : Text) : Bool :=
  let saved := fgets 95 contents
  saved ≠ [] && (manifestLine fingerprint).length < 96 &&
    trim (saved.takeWhile (· ≠ '\x00')) = manifestLine fingerprint

def manifestMatches (disk : Disk) (output fingerprint : Text) : Bool :=
  (manifestPath output).length < pathCap &&
    match disk.contents (manifestPath output) with
    | none => false
    | some contents => manifestSays contents fingerprint

/-! ## What a written manifest says -/

theorem fgets_line {s : Text} {room : Nat} (hline : '\n' ∉ s) (hroom : s.length < room) :
    fgets room (s ++ ['\n']) = s ++ ['\n'] := by
  induction s generalizing room with
  | nil =>
      obtain ⟨room, rfl⟩ := Nat.exists_eq_add_one_of_ne_zero (Nat.ne_of_gt hroom)
      rfl
  | cons c s ih =>
      rw [List.mem_cons, not_or] at hline
      obtain ⟨room, rfl⟩ := Nat.exists_eq_add_one_of_ne_zero (Nat.ne_of_gt (Nat.lt_of_le_of_lt (Nat.zero_le _) hroom))
      rw [List.cons_append, fgets, if_neg (Ne.symm hline.1), ih hline.2 (Nat.succ_lt_succ_iff.mp hroom)]

/-- A text without blanks at its ends is what `trim` leaves of its line. -/
theorem trim_line {c d : Char} {s : Text} (hc : isSpace c = false) (hd : isSpace d = false) :
    trim ((c :: s ++ [d]) ++ ['\n']) = c :: s ++ [d] := by
  have hreverse : ((c :: s ++ [d]) ++ ['\n']).reverse.dropWhile isSpace = d :: (c :: s).reverse := by
    rw [List.reverse_append, List.reverse_append]
    show (d :: (c :: s).reverse).dropWhile isSpace = _
    rw [List.dropWhile_cons_of_neg (by simp [hd])]
  rw [trim, hreverse, List.reverse_cons, List.reverse_reverse, List.cons_append,
    List.dropWhile_cons_of_neg (by simp [hc])]

theorem digitChar_plain (n : Nat) (h : n < 16) :
    isSpace n.digitChar = false ∧ n.digitChar ≠ '\x00' := by
  have hall : ∀ n < 16, isSpace (Nat.digitChar n) = false ∧ Nat.digitChar n ≠ '\x00' := by decide
  exact hall n h

theorem hexDigits_plain {hash : BitVec 64} {c : Char} (h : c ∈ hexDigits hash) : isSpace c = false ∧ c ≠ '\x00' := by
  obtain ⟨i, -, rfl⟩ := List.mem_map.mp h
  exact digitChar_plain _ (Nat.mod_lt _ (by decide))

theorem manifestLine_plain {hash : BitVec 64} {c : Char} (h : c ∈ manifestLine (hexDigits hash)) :
    c ≠ '\n' ∧ c ≠ '\x00' := by
  have hword : ("vbuild-inputs-v1 ".toList.all fun c => c ≠ '\n' ∧ c ≠ '\x00') = true := by decide
  rcases List.mem_append.mp h with hc | hc
  · exact of_decide_eq_true (List.all_eq_true.mp hword c hc)
  · obtain ⟨hspace, hnul⟩ := hexDigits_plain hc
    refine ⟨?_, hnul⟩
    rintro rfl
    cases hspace

theorem length_hexDigits (hash : BitVec 64) : (hexDigits hash).length = 16 := by
  rw [hexDigits, List.length_map, List.length_range]

theorem manifestLine_eq (s : Text) : manifestLine s = 'v' :: ("build-inputs-v1 ".toList ++ s) := by
  have hword : "vbuild-inputs-v1 ".toList = 'v' :: "build-inputs-v1 ".toList := by decide
  exact congrArg (· ++ s) hword

theorem length_manifestLine (s : Text) : (manifestLine s).length = s.length + 17 := by
  have hword : "build-inputs-v1 ".toList.length = 16 := by decide
  rw [manifestLine_eq, List.length_cons, List.length_append, hword]
  omega

/-- The line that was written is the line that is read. -/
theorem trim_manifestLine (hash : BitVec 64) :
    trim (manifestLine (hexDigits hash) ++ ['\n']) = manifestLine (hexDigits hash) := by
  obtain ⟨digits, last, hdigits⟩ : ∃ digits last, hexDigits hash = digits ++ [last] := by
    refine ⟨(hexDigits hash).dropLast, _, (List.dropLast_append_getLast ?_).symm⟩
    exact List.ne_nil_of_length_pos (by rw [length_hexDigits]; decide)
  have hlast : isSpace last = false := (hexDigits_plain (by rw [hdigits]; simp)).1
  rw [hdigits, manifestLine_eq, ← List.append_assoc]
  exact trim_line rfl hlast

/-- **A manifest says only the fingerprint that was written into it.** -/
theorem eq_of_manifestSays {inputs : List Input} {other : Text}
    (h : manifestSays (manifestLine (fingerprint inputs) ++ ['\n']) other = true) : other = fingerprint inputs := by
  obtain ⟨hash, hhash⟩ : ∃ hash, fingerprint inputs = hexDigits hash := ⟨_, fingerprint.eq_1 inputs⟩
  rw [hhash] at h ⊢
  have hplain : ∀ c ∈ manifestLine (hexDigits hash), c ≠ '\n' ∧ c ≠ '\x00' := fun c hc => manifestLine_plain hc
  have hsaved : fgets 95 (manifestLine (hexDigits hash) ++ ['\n']) = manifestLine (hexDigits hash) ++ ['\n'] := by
    apply fgets_line (fun hmem => (hplain _ hmem).1 rfl)
    rw [length_manifestLine, length_hexDigits]
    decide
  have hcString : (manifestLine (hexDigits hash) ++ ['\n']).takeWhile (· ≠ '\x00') =
      manifestLine (hexDigits hash) ++ ['\n'] := by
    rw [List.takeWhile_eq_self_iff]
    intro c hc
    rcases List.mem_append.mp hc with hc | hc
    · exact decide_eq_true (hplain c hc).2
    · cases List.mem_singleton.mp hc
      rfl
  rw [manifestSays] at h
  rw [hsaved, hcString, trim_manifestLine] at h
  simp only [Bool.and_eq_true, decide_eq_true_eq] at h
  exact (List.append_cancel_left h.2).symm

end Vnt.VBuild
