import Vnt.VBuild.Publish
import Vnt.VBuild.Script

/-!
# `VBuild.Provenance` — what the actions of a task do to the files

`build` and `check` run the compiler with the project's configuration, `test` builds every program in `tests/` under its
own name in the same directory `build/` and executes it, `run` executes what it finds under the name of the output, and
`clean` removes the directory. What an executed program does to the files is a parameter.
-/

namespace Vnt.VBuild

open Modules Lib Relation

/-- What the programs do that vbuild executes: the path, the disk before, the status, the disk after. -/
abbrev Programs := Text → Disk → Int → Disk → Prop

section

variable (artifactOf : List Input → Text)

/-- `run_compiler`, with what it returns. A check writes no file. -/
inductive CompilerRuns (invocation : Invocation) (cfg : Config) (check : Bool) : Disk → Int → Disk → Prop where
  | fails {disk disk' : Disk} {message : String} : runCompiler invocation cfg check disk = (disk', .error message) →
      CompilerRuns invocation cfg check disk 1 disk'
  | checks {disk disk' : Disk} {compiler source : Text} {code : Int} :
      runCompiler invocation cfg check disk = (disk', .ok (.check compiler source)) → (code = 0 ∨ code = 1) →
      CompilerRuns invocation cfg check disk code disk'
  | upToDate {disk disk' : Disk} {plan : Plan} :
      runCompiler invocation cfg check disk = (disk', .ok (.upToDate plan)) →
      CompilerRuns invocation cfg check disk 0 disk'
  | compiles {disk disk₁ disk' : Disk} {plan : Plan} {report : Report} :
      runCompiler invocation cfg check disk = (disk₁, .ok (.compile plan)) →
      Finishes artifactOf plan .clearArtifact disk₁ report disk' →
      CompilerRuns invocation cfg check disk report.exitCode disk'

/-! ## Tests -/

def testExtension : Text := ".vnt".toList

/-- The name of a test program, and `none` for a file that is none. -/
def testName (filename : Text) : Option Text :=
  if filename.length < 5 ∨ testExtension.isSuffixOf filename = false then none
  else some (filename.take (filename.length - 4))

def testPath (filename : Text) : Text := "tests/".toList ++ filename

/-- The configuration of a test. -/
def testConfig (cfg : Config) (filename name : Text) : Except String Config :=
  if name.length ≥ 256 then .error ("vbuild: test filename too long: " ++ String.ofList filename)
  else if safeFilename name = false ∨ (testPath filename).length ≥ pathCap then
    .error ("vbuild: invalid test filename: " ++ String.ofList filename)
  else .ok { cfg with source := testPath filename, output := name, target := "exe".toList }

/-- `run_one_test` on a test program. -/
inductive TestRuns (programs : Programs) (invocation : Invocation) (cfg : Config) (filename name : Text) :
    Disk → Int → Disk → Prop where
  | refused {disk : Disk} {message : String} : testConfig cfg filename name = .error message →
      TestRuns programs invocation cfg filename name disk 1 disk
  | compilerFails {disk disk' : Disk} {test : Config} {code : Int} : testConfig cfg filename name = .ok test →
      CompilerRuns artifactOf invocation test false disk code disk' → code ≠ 0 →
      TestRuns programs invocation cfg filename name disk 1 disk'
  | pathTooLong {disk disk' : Disk} {test : Config} {message : String} : testConfig cfg filename name = .ok test →
      CompilerRuns artifactOf invocation test false disk 0 disk' →
      buildPath invocation.projectRoot name "vbuild: test output path too long." = .error message →
      TestRuns programs invocation cfg filename name disk 1 disk'
  | executed {disk disk₁ disk' : Disk} {test : Config} {path : Text} {status : Int} :
      testConfig cfg filename name = .ok test → CompilerRuns artifactOf invocation test false disk 0 disk₁ →
      buildPath invocation.projectRoot name "vbuild: test output path too long." = .ok path →
      programs path disk₁ status disk' →
      TestRuns programs invocation cfg filename name disk (if status = 0 then 0 else 1) disk'

/-- `run_tests` from an entry of the directory on, with what it has counted. -/
inductive TestsRun (programs : Programs) (invocation : Invocation) (cfg : Config) :
    List Text → Nat → Nat → Disk → Int → Disk → Prop where
  | done {count failures : Nat} {disk : Disk} :
      TestsRun programs invocation cfg [] count failures disk (if count = 0 ∨ failures ≠ 0 then 1 else 0) disk
  | noProgram {filename : Text} {rest : List Text} {count failures : Nat} {disk disk' : Disk} {code : Int} :
      testName filename = none → TestsRun programs invocation cfg rest count failures disk code disk' →
      TestsRun programs invocation cfg (filename :: rest) count failures disk code disk'
  | tooLong {filename name : Text} {rest : List Text} {count failures : Nat} {disk disk' : Disk} {code : Int} :
      testName filename = some name → pathCap ≤ (testPath filename).length →
      TestsRun programs invocation cfg rest count (failures + 1) disk code disk' →
      TestsRun programs invocation cfg (filename :: rest) count failures disk code disk'
  | notRegular {filename name : Text} {rest : List Text} {count failures : Nat} {disk disk' : Disk} {code : Int} :
      testName filename = some name → (testPath filename).length < pathCap →
      disk.isRegularFile (fullPath invocation.projectRoot (testPath filename)) = false →
      TestsRun programs invocation cfg rest count failures disk code disk' →
      TestsRun programs invocation cfg (filename :: rest) count failures disk code disk'
  | test {filename name : Text} {rest : List Text} {count failures : Nat} {disk disk₁ disk' : Disk} {code result : Int} :
      testName filename = some name → (testPath filename).length < pathCap →
      disk.isRegularFile (fullPath invocation.projectRoot (testPath filename)) = true →
      TestRuns artifactOf programs invocation cfg filename name disk result disk₁ →
      TestsRun programs invocation cfg rest (count + 1) (if result = 0 then failures else failures + 1) disk₁ code disk' →
      TestsRun programs invocation cfg (filename :: rest) count failures disk code disk'

/-! ## Actions -/

/-- What the run action executes. -/
def runTarget (invocation : Invocation) (cfg : Config) (disk : Disk) : Except String Text :=
  if cfg.target ≠ "exe".toList then
    .error ("vbuild: run requires target exe; selected target is '" ++ String.ofList cfg.target ++ "'.")
  else do
    let output ← buildPath invocation.projectRoot cfg.output "vbuild: output path is too long."
    if disk.artifactIsUsable output "exe".toList then .ok output
    else .error ("vbuild: output is not a usable executable; add 'depends build' to this task or run the build task " ++
      "first: " ++ String.ofList output)

/-- `execute_action`; `entries` is what the directory `tests/` lists, `none` when it cannot be opened. -/
inductive Acts (programs : Programs) (invocation : Invocation) (cfg : Config) (entries : Option (List Text)) :
    Action → Disk → Int → Disk → Prop where
  | build {disk disk' : Disk} {code : Int} : CompilerRuns artifactOf invocation cfg false disk code disk' →
      Acts programs invocation cfg entries .build disk code disk'
  | check {disk disk' : Disk} {code : Int} : CompilerRuns artifactOf invocation cfg true disk code disk' →
      Acts programs invocation cfg entries .check disk code disk'
  /-- `rm -rf -- build`. -/
  | clean {disk disk' : Disk} {code : Int} : (∀ path, disk' path = disk path ∨ disk' path = none) →
      Acts programs invocation cfg entries .clean disk code disk'
  | noTests {disk : Disk} : entries = none → Acts programs invocation cfg entries .test disk 1 disk
  | test {names : List Text} {disk disk' : Disk} {code : Int} : entries = some names →
      TestsRun artifactOf programs invocation cfg names 0 0 disk code disk' →
      Acts programs invocation cfg entries .test disk code disk'
  | refuse {disk : Disk} {message : String} : runTarget invocation cfg disk = .error message →
      Acts programs invocation cfg entries .run disk 1 disk
  | run {disk disk' : Disk} {path : Text} {status : Int} : runTarget invocation cfg disk = .ok path →
      programs path disk status disk' → Acts programs invocation cfg entries .run disk status disk'
  | none {disk : Disk} : Acts programs invocation cfg entries .none disk 0 disk

end

/-!
## What the run action executes

`build` puts the program of the project under its name into `build/`, `test` puts every test program under its own name
there, and `run` executes what stands under the project's name. So a test program of that name is the one thing that can
come between. All the other files that a test writes, its temporary files and its manifest, are gone or cannot be executed
when it is done, even where one has the name of the project's program (`Finishes.good`).
-/

/-- The compiler has made the bytes from this source. -/
def CompiledFrom (artifactOf : List Input → Text) (source bytes : Text) : Prop :=
  ∃ contents rest, bytes = artifactOf (.file source contents :: rest)

/-- The program at `output`, if it can be executed, was made from `source`. -/
def Good (artifactOf : List Input → Text) (output source : Text) (disk : Disk) : Prop :=
  disk.artifactIsUsable output "exe".toList = true →
    ∀ bytes, disk.bytesAt output = some bytes → CompiledFrom artifactOf source bytes

variable {artifactOf : List Input → Text} {output source : Text} {plan : Plan} {disk disk' : Disk}

/-! ## Files that are not executed -/

theorem Good.keep (h : Good artifactOf output source disk) (hsame : disk' output = disk output) :
    Good artifactOf output source disk' := by
  intro husable bytes hbytes
  rw [Disk.artifactIsUsable, hsame] at husable
  rw [Disk.bytesAt, hsame] at hbytes
  exact h husable bytes hbytes

theorem good_of_none (h : disk output = none) : Good artifactOf output source disk := by
  intro husable
  rw [Disk.artifactIsUsable, h] at husable
  cases husable

theorem good_of_directory {file : File} (h : disk output = some file) (hkind : file.kind = .directory) :
    Good artifactOf output source disk := by
  intro _ bytes hbytes
  rw [Disk.bytesAt, h] at hbytes
  rw [Option.bind_some, if_pos hkind] at hbytes
  cases hbytes

theorem good_of_plain {file : File} (h : disk output = some file) (hplain : file.executable = false) :
    Good artifactOf output source disk := by
  intro husable
  rw [Disk.artifactIsUsable, h] at husable
  simp [hplain] at husable

theorem good_of_removes (h : Removes output disk disk') : Good artifactOf output source disk' := by
  cases h with
  | gone => exact good_of_none Disk.set_same
  | directory hfile hkind => exact good_of_directory hfile hkind

/-! ## One operation -/

/-- The program is good, or its file is one of the temporary files that may hold anything now. -/
def Guarded (artifactOf : List Input → Text) (output source : Text) (plan : Plan) (outputOpen assemblyOpen : Bool)
    (disk : Disk) : Prop :=
  (outputOpen = true ∧ output = plan.temporaryOutput) ∨ (assemblyOpen = true ∧ output = plan.temporaryAssembly) ∨
    Good artifactOf output source disk

variable {outputOpen assemblyOpen : Bool}

theorem Guarded.good (h : Guarded artifactOf output source plan false false disk) :
    Good artifactOf output source disk := by
  rcases h with ⟨h, -⟩ | ⟨h, -⟩ | h
  · cases h
  · cases h
  · exact h

/-- Removing another file changes nothing, and removing this one leaves nothing to execute. -/
theorem Guarded.removes {path : Text} (h : Guarded artifactOf output source plan outputOpen assemblyOpen disk)
    (hremoves : Removes path disk disk') : Guarded artifactOf output source plan outputOpen assemblyOpen disk' := by
  rcases h with h | h | h
  · exact .inl h
  · exact .inr (.inl h)
  · by_cases hsame : output = path
    · subst hsame
      exact .inr (.inr (good_of_removes hremoves))
    · exact .inr (.inr (h.keep (hremoves.other hsame)))

theorem Guarded.removesOutput (h : Guarded artifactOf output source plan outputOpen assemblyOpen disk)
    (hremoves : Removes plan.temporaryOutput disk disk') :
    Guarded artifactOf output source plan false assemblyOpen disk' := by
  rcases h.removes hremoves with ⟨-, rfl⟩ | h | h
  · exact .inr (.inr (good_of_removes hremoves))
  · exact .inr (.inl h)
  · exact .inr (.inr h)

theorem Guarded.removesAssembly (h : Guarded artifactOf output source plan outputOpen assemblyOpen disk)
    (hremoves : Removes plan.temporaryAssembly disk disk') :
    Guarded artifactOf output source plan outputOpen false disk' := by
  rcases h.removes hremoves with h | ⟨-, rfl⟩ | h
  · exact .inl h
  · exact .inr (.inr (good_of_removes hremoves))
  · exact .inr (.inr h)

/-- The compiler writes its two files only. -/
theorem Guarded.writes (h : Guarded artifactOf output source plan outputOpen assemblyOpen disk)
    (hagree : ∀ path, path ≠ plan.temporaryOutput → path ≠ plan.temporaryAssembly → disk' path = disk path) :
    Guarded artifactOf output source plan true true disk' := by
  by_cases houtput : output = plan.temporaryOutput
  · exact .inl ⟨rfl, houtput⟩
  · by_cases hassembly : output = plan.temporaryAssembly
    · exact .inr (.inl ⟨rfl, hassembly⟩)
    · rcases h with ⟨-, h⟩ | ⟨-, h⟩ | h
      · exact absurd h houtput
      · exact absurd h hassembly
      · exact .inr (.inr (h.keep (hagree output houtput hassembly)))

/-- The temporary output may hold anything before these operations. -/
def Phase.openOutput : Phase → Bool
  | .compile | .discard _ _ | .inspect | .dropAssembly | .publish => true
  | _ => false

/-- The assembly may hold anything before these operations. -/
def Phase.openAssembly : Phase → Bool
  | .compile | .discard true _ | .discardAssembly _ | .inspect | .dropAssembly => true
  | _ => false

/-- The compiler has succeeded, and the artifact is not in its place yet. -/
def Phase.compiled : Phase → Bool
  | .inspect | .dropAssembly | .publish => true
  | _ => false

/-- What holds before an operation of a run. Where `kept` does not hold, the run has to replace the program first. -/
structure Held (artifactOf : List Input → Text) (output source : Text) (plan : Plan) (kept : Prop) (phase : Phase)
    (disk : Disk) : Prop where
  guarded : kept ∨ phase.unrecorded = true →
    Guarded artifactOf output source plan phase.openOutput phase.openAssembly disk
  ready : phase.compiled = true → Holds plan.temporaryOutput (artifactOf plan.inputs) disk
  cleared : phase = .createManifest → ∀ file, disk plan.temporaryManifest = some file → file.kind = .directory
  plain : phase = .writeManifest ∨ phase = .publishManifest →
    ∀ file, disk plan.temporaryManifest = some file → file.executable = false

/-- What holds after an operation of `phase`. -/
def HeldAfter (artifactOf : List Input → Text) (output source : Text) (plan : Plan) (kept : Prop) (phase : Phase) :
    Progress → Disk → Prop
  | .running phase', disk => Held artifactOf output source plan kept phase' disk
  | .done _, disk => kept ∨ phase.unrecorded = true → Good artifactOf output source disk

variable {kept : Prop} {phase : Phase}

/-- Before most operations nothing is known of the temporary files. -/
theorem held_of_guarded
    (h : kept ∨ phase.unrecorded = true →
      Guarded artifactOf output source plan phase.openOutput phase.openAssembly disk)
    (hcompiled : phase.compiled = false) (hcreate : phase ≠ .createManifest) (hwrite : phase ≠ .writeManifest)
    (hpublish : phase ≠ .publishManifest) : Held artifactOf output source plan kept phase disk where
  guarded := h
  ready := fun h => by
    rw [hcompiled] at h
    cases h
  cleared := fun h => absurd h hcreate
  plain := fun h => (h.elim hwrite hpublish).elim

theorem held_of_compiled
    (h : kept ∨ phase.unrecorded = true →
      Guarded artifactOf output source plan phase.openOutput phase.openAssembly disk)
    (hready : Holds plan.temporaryOutput (artifactOf plan.inputs) disk) (hcreate : phase ≠ .createManifest)
    (hwrite : phase ≠ .writeManifest) (hpublish : phase ≠ .publishManifest) :
    Held artifactOf output source plan kept phase disk where
  guarded := h
  ready := fun _ => hready
  cleared := fun h => absurd h hcreate
  plain := fun h => (h.elim hwrite hpublish).elim

/-- The artifact comes into its place. -/
theorem good_of_publish (hkept : kept ∨ plan.output = output)
    (hsource : plan.output = output → ∃ contents rest, plan.inputs = .file source contents :: rest)
    (hguarded : kept → Guarded artifactOf output source plan true false disk)
    (hready : Holds plan.temporaryOutput (artifactOf plan.inputs) disk) :
    Good artifactOf output source (disk.rename plan.temporaryOutput plan.output) := by
  by_cases hsame : plan.output = output
  · intro _ bytes hbytes
    obtain ⟨contents, rest, hinputs⟩ := hsource hsame
    rw [← hsame, Disk.bytesAt_rename plan.output_ne_temporaryOutput] at hbytes
    exact ⟨contents, rest, hinputs ▸ hready bytes hbytes⟩
  · by_cases htemporary : output = plan.temporaryOutput
    · apply good_of_none
      rw [htemporary, Disk.rename, Disk.set_same]
    · rcases hguarded (hkept.resolve_right hsame) with ⟨-, h⟩ | ⟨h, -⟩ | h
      · exact absurd h htemporary
      · cases h
      · exact h.keep (Disk.rename_other htemporary (Ne.symm hsame))

/-- The manifest comes into its place, and cannot be executed. -/
theorem good_of_record (h : Good artifactOf output source disk)
    (hplain : ∀ file, disk plan.temporaryManifest = some file → file.executable = false) :
    Good artifactOf output source (disk.rename plan.temporaryManifest plan.manifest) := by
  by_cases htemporary : output = plan.temporaryManifest
  · apply good_of_none
    rw [htemporary, Disk.rename, Disk.set_same]
  · by_cases hmanifest : output = plan.manifest
    · have hplace : disk.rename plan.temporaryManifest plan.manifest output = disk plan.temporaryManifest := by
        rw [hmanifest]
        exact Disk.rename_destination (plan.manifestPath_ne_temporaryManifest plan.output)
      cases hfile : disk plan.temporaryManifest with
      | none => exact good_of_none (hplace.trans hfile)
      | some file => exact good_of_plain (hplace.trans hfile) (hplain file hfile)
    · exact h.keep (Disk.rename_other htemporary hmanifest)

/-- A temporary manifest that cannot be executed is written. -/
theorem good_of_write {path : Text} {file : Option File} (h : Good artifactOf output source disk)
    (hplain : ∀ written, file = some written → written.executable = false) :
    Good artifactOf output source (disk.set path file) := by
  by_cases hsame : output = path
  · subst hsame
    cases file with
    | none => exact good_of_none Disk.set_same
    | some written => exact good_of_plain Disk.set_same (hplain written rfl)
  · exact h.keep (Disk.set_other hsame)

theorem plain_written {path : Text} (h : ∀ file, disk path = some file → file.executable = false) (bytes : Text)
    (mtime : Int) :
    ∀ file, (disk path).map (fun file => { file with bytes := bytes, mtime := mtime }) = some file →
      file.executable = false := by
  intro file hfile
  obtain ⟨old, hold, rfl⟩ := Option.map_eq_some_iff.mp hfile
  exact h old hold

/-- **One operation of a run.** -/
theorem Operation.held {progress : Progress} (h : Operation artifactOf plan phase disk progress disk')
    (hassembly : plan.hasAssembly = true) (hkept : kept ∨ plan.output = output)
    (hsource : plan.output = output → ∃ contents rest, plan.inputs = .file source contents :: rest)
    (hheld : Held artifactOf output source plan kept phase disk) :
    HeldAfter artifactOf output source plan kept phase progress disk' := by
  have hafter : afterInspection plan = .dropAssembly := by
    rw [afterInspection, hassembly]
    rfl
  cases h with
  | clearArtifact _ hno =>
      rw [hassembly] at hno
      cases hno
  | clearArtifactFirst hremoves =>
      exact held_of_guarded (fun hneeded => (hheld.guarded hneeded).removes hremoves) rfl nofun nofun nofun
  | assemblyTooLong hremoves => exact fun hneeded => ((hheld.guarded hneeded).removes hremoves).good
  | clearAssembly hremoves =>
      refine held_of_guarded (fun hneeded => ?_) rfl nofun nofun nofun
      exact .inr (.inr ((hheld.guarded hneeded).removes hremoves).good)
  | compilerWrites hagree =>
      exact held_of_guarded (fun hneeded => (hheld.guarded hneeded).writes hagree) rfl nofun nofun nofun
  | compilerFails =>
      rw [hassembly]
      exact held_of_guarded (fun hneeded => hheld.guarded hneeded) rfl nofun nofun nofun
  | compilerSucceeds hmade =>
      exact held_of_compiled (fun hneeded => hheld.guarded hneeded) (holds_of_file hmade) nofun nofun nofun
  | discard hremoves => exact fun hneeded => ((hheld.guarded hneeded).removesOutput hremoves).good
  | discardBoth hremoves =>
      exact held_of_guarded (fun hneeded => (hheld.guarded hneeded).removesOutput hremoves) rfl nofun nofun nofun
  | discardAssembly hremoves => exact fun hneeded => ((hheld.guarded hneeded).removesAssembly hremoves).good
  | usable =>
      show Held _ _ _ _ _ (afterInspection plan) _
      rw [hafter]
      exact held_of_compiled (fun hneeded => hheld.guarded hneeded) (hheld.ready rfl) nofun nofun nofun
  | unusable =>
      rw [hassembly]
      exact held_of_guarded (fun hneeded => hheld.guarded hneeded) rfl nofun nofun nofun
  | dropAssembly =>
      refine held_of_compiled (fun hneeded => (hheld.guarded hneeded).removesAssembly .gone) ?_ nofun nofun nofun
      intro bytes hbytes
      rw [Disk.bytesAt_congr (Disk.set_other plan.temporaryOutput_ne_temporaryAssembly)] at hbytes
      exact hheld.ready rfl bytes hbytes
  | assemblyStays hfile hkind =>
      exact held_of_guarded (fun hneeded => (hheld.guarded hneeded).removesAssembly (.directory hfile hkind)) rfl
        nofun nofun nofun
  | publish =>
      refine held_of_guarded (fun _ => .inr (.inr ?_)) rfl nofun nofun nofun
      exact good_of_publish hkept hsource (fun hkept => hheld.guarded (.inl hkept)) (hheld.ready rfl)
  | publishFails => exact held_of_guarded (fun hneeded => hheld.guarded hneeded) rfl nofun nofun nofun
  | manifestTooLong => exact fun hneeded => (hheld.guarded hneeded).good
  | temporaryTooLong => exact fun hneeded => (hheld.guarded hneeded).good
  | clearManifest _ _ hremoves =>
      refine ⟨fun hneeded => (hheld.guarded hneeded).removes hremoves, nofun, fun _ file hfile => ?_, nofun⟩
      cases hremoves with
      | gone =>
          rw [Disk.set_same] at hfile
          cases hfile
      | directory hfile' hkind =>
          cases hfile'.symm.trans hfile
          exact hkind
  | createFails => exact fun hneeded => (hheld.guarded hneeded).good
  | createManifest habsent =>
      have hnone : disk plan.temporaryManifest = none := by
        cases hfile : disk plan.temporaryManifest with
        | none => rfl
        | some file => exact absurd (hheld.cleared rfl file hfile) (habsent file hfile)
      refine ⟨fun hneeded => .inr (.inr (good_of_write (hheld.guarded hneeded).good fun file hfile => ?_)), nofun, nofun,
        fun _ file hfile => ?_⟩
      · rw [hnone] at hfile
        cases hfile
        rfl
      · rw [opened, Disk.set_same, hnone] at hfile
        cases hfile
        rfl
  | writeManifest =>
      have hplain := plain_written (hheld.plain (.inl rfl)) (manifestLine plan.fingerprint ++ ['\n'])
      refine ⟨fun hneeded => .inr (.inr (good_of_write (hheld.guarded hneeded).good (hplain _))), nofun, nofun,
        fun _ file hfile => ?_⟩
      rw [written, Disk.set_same] at hfile
      exact hplain _ file hfile
  | writeFails =>
      have hplain := plain_written (hheld.plain (.inl rfl))
      exact held_of_guarded (fun hneeded => .inr (.inr (good_of_write (hheld.guarded hneeded).good (hplain _ _)))) rfl
        nofun nofun nofun
  | discardManifest hremoves => exact fun hneeded => ((hheld.guarded hneeded).removes hremoves).good
  | publishManifest =>
      exact fun hneeded => good_of_record (hheld.guarded hneeded).good (hheld.plain (.inr rfl))
  | publishManifestFails => exact held_of_guarded (fun hneeded => hheld.guarded hneeded) rfl nofun nofun nofun

/-! ## A run of the compiler -/

/-- Only the last operation succeeds. -/
theorem Operation.unrecorded_of_success {report : Report}
    (h : Operation artifactOf plan phase disk (.done report) disk') (hcode : report.exitCode = 0) :
    phase.unrecorded = true := by
  cases report with
  | failed message => cases hcode
  | built out target =>
      cases h with
      | publishManifest => rfl

theorem Finishes.good {report : Report} (h : Finishes artifactOf plan phase disk report disk')
    (hassembly : plan.hasAssembly = true) (hkept : kept ∨ plan.output = output)
    (hsource : plan.output = output → ∃ contents rest, plan.inputs = .file source contents :: rest)
    (hheld : Held artifactOf output source plan kept phase disk) (hreport : kept ∨ report.exitCode = 0) :
    Good artifactOf output source disk' := by
  induction h with
  | last hoperation =>
      apply hoperation.held hassembly hkept hsource hheld
      exact hreport.imp_right hoperation.unrecorded_of_success
  | next hoperation _ ih => exact ih (hoperation.held hassembly hkept hsource hheld) hreport

theorem Good.decide (h : Good artifactOf output source disk) (invocation : Invocation) (cfg : Config) (check : Bool) :
    Good artifactOf output source (runCompiler invocation cfg check disk).1 := by
  rcases runCompiler_disk invocation cfg check disk output with hsame | ⟨-, file, hfile, hkind⟩
  · exact h.keep hsame
  · exact good_of_directory hfile hkind

/-- A run keeps the program, unless it builds one of that name from another source. -/
theorem CompilerRuns.good {invocation : Invocation} {cfg : Config} {check : Bool} {code : Int}
    (h : CompilerRuns artifactOf invocation cfg check disk code disk') (htarget : cfg.target = "exe".toList)
    (hsource : builtPath invocation.projectRoot cfg.output = output →
      fullPath invocation.projectRoot cfg.source = source)
    (hgood : Good artifactOf output source disk) : Good artifactOf output source disk' := by
  have hdecided := hgood.decide invocation cfg check
  cases h with
  | fails hrun =>
      rw [hrun] at hdecided
      exact hdecided
  | checks hrun =>
      rw [hrun] at hdecided
      exact hdecided
  | upToDate hrun =>
      rw [hrun] at hdecided
      exact hdecided
  | compiles hrun hfinishes =>
      rw [hrun] at hdecided
      have hplan := runCompiler_compile hrun
      obtain ⟨houtput, hassembly⟩ := hplan.exe htarget
      apply hfinishes.good hassembly (.inl trivial : True ∨ _) ?_ ?_ (.inl trivial)
      · intro hsame
        rw [← hsource (houtput ▸ hsame)]
        exact hplan.inputs
      · exact held_of_guarded (fun _ => .inr (.inr hdecided)) rfl nofun nofun nofun

/-- The first build leaves the program of the source. -/
theorem CompilerRuns.built {invocation : Invocation} {cfg : Config} {code : Int}
    (h : CompilerRuns artifactOf invocation cfg false disk code disk') (hcode : code = 0)
    (htarget : cfg.target = "exe".toList)
    (hcache : ∀ plan disk', runCompiler invocation cfg false disk = (disk', .ok (.upToDate plan)) →
      disk'.bytesAt plan.output = some (artifactOf plan.inputs)) :
    Good artifactOf (builtPath invocation.projectRoot cfg.output) (fullPath invocation.projectRoot cfg.source) disk' := by
  cases h with
  | fails => cases hcode
  | checks hrun =>
      rcases runCompiler_cases hrun with ⟨hcheck, -⟩ | ⟨-, plan, -, hdecide⟩
      · cases hcheck
      · rcases decideCompile_cases hdecide with ⟨hdecision, -⟩ | hdecision
        · cases hdecision
        · cases hdecision
  | upToDate hrun =>
      obtain ⟨hplan, -⟩ := runCompiler_upToDate hrun
      obtain ⟨contents, rest, hinputs⟩ := hplan.inputs
      intro _ bytes hbytes
      rw [← (hplan.exe htarget).1, hcache _ _ hrun] at hbytes
      exact ⟨contents, rest, by rw [← hinputs, Option.some.inj hbytes]⟩
  | compiles hrun hfinishes =>
      have hplan := runCompiler_compile hrun
      obtain ⟨houtput, hassembly⟩ := hplan.exe htarget
      apply hfinishes.good hassembly (.inr houtput : False ∨ _) (fun _ => hplan.inputs) ?_ (.inr hcode)
      exact held_of_guarded (fun hneeded => hneeded.elim False.elim nofun) rfl nofun nofun nofun

/-! ## Tests and actions -/

/-- The programs that are executed leave a file alone, or remove it. -/
def Spares (programs : Programs) (output : Text) : Prop :=
  ∀ path disk status disk', programs path disk status disk' → disk' output = disk output ∨ disk' output = none

/-- A test program that has the name of the project's program is its source. -/
def Apart (invocation : Invocation) (cfg : Config) (names : List Text) : Prop :=
  ∀ filename ∈ names, filename = cfg.output ++ testExtension →
    fullPath invocation.projectRoot (testPath filename) = fullPath invocation.projectRoot cfg.source

variable {programs : Programs} {invocation : Invocation} {cfg : Config}

theorem Good.sparing (h : Good artifactOf output source disk)
    (hspares : disk' output = disk output ∨ disk' output = none) : Good artifactOf output source disk' := by
  rcases hspares with hsame | hnone
  · exact h.keep hsame
  · exact good_of_none hnone

theorem testName_some {filename name : Text} (h : testName filename = some name) : filename = name ++ testExtension := by
  rw [testName] at h
  split at h
  · cases h
  · rename_i hprogram
    rw [not_or, Bool.not_eq_false] at hprogram
    obtain ⟨start, rfl⟩ := List.isSuffixOf_iff_suffix.mp hprogram.2
    have hlength : testExtension.length = 4 := by decide
    rw [List.length_append, hlength, Nat.add_sub_cancel, List.take_left] at h
    rw [Option.some.inj h]

theorem testConfig_ok {filename name : Text} {test : Config} (h : testConfig cfg filename name = .ok test) :
    test = { cfg with source := testPath filename, output := name, target := "exe".toList } := by
  rw [testConfig] at h
  split at h
  · cases h
  · split at h
    · cases h
    · exact (Except.ok.inj h).symm

theorem builtPath_injective {projectRoot : Text} : Function.Injective (builtPath projectRoot) := by
  intro name name' h
  exact List.tail_eq_of_cons_eq (List.append_cancel_left h)

theorem TestRuns.good {filename name : Text} {code : Int}
    (h : TestRuns artifactOf programs invocation cfg filename name disk code disk')
    (hspares : Spares programs output)
    (hsource : builtPath invocation.projectRoot name = output →
      fullPath invocation.projectRoot (testPath filename) = source)
    (hgood : Good artifactOf output source disk) : Good artifactOf output source disk' := by
  have hcompiled : ∀ {test : Config} {code : Int} {disk₁ : Disk}, testConfig cfg filename name = .ok test →
      CompilerRuns artifactOf invocation test false disk code disk₁ → Good artifactOf output source disk₁ := by
    intro test code disk₁ htest hruns
    obtain rfl := testConfig_ok htest
    exact hruns.good rfl hsource hgood
  cases h with
  | refused => exact hgood
  | compilerFails htest hruns _ => exact hcompiled htest hruns
  | pathTooLong htest hruns _ => exact hcompiled htest hruns
  | executed htest hruns _ hprogram => exact (hcompiled htest hruns).sparing (hspares _ _ _ _ hprogram)

theorem TestsRun.good {names : List Text} {count failures : Nat} {code : Int}
    (h : TestsRun artifactOf programs invocation cfg names count failures disk code disk')
    (hspares : Spares programs (builtPath invocation.projectRoot cfg.output)) (hapart : Apart invocation cfg names)
    (hgood : Good artifactOf (builtPath invocation.projectRoot cfg.output)
      (fullPath invocation.projectRoot cfg.source) disk) :
    Good artifactOf (builtPath invocation.projectRoot cfg.output) (fullPath invocation.projectRoot cfg.source) disk' := by
  induction h with
  | done => exact hgood
  | noProgram _ _ ih => exact ih (fun filename hmem => hapart filename (List.mem_cons_of_mem _ hmem)) hgood
  | tooLong _ _ _ ih => exact ih (fun filename hmem => hapart filename (List.mem_cons_of_mem _ hmem)) hgood
  | notRegular _ _ _ _ ih => exact ih (fun filename hmem => hapart filename (List.mem_cons_of_mem _ hmem)) hgood
  | test hname _ _ hruns _ ih =>
      apply ih (fun filename hmem => hapart filename (List.mem_cons_of_mem _ hmem))
      refine hruns.good hspares (fun hsame => ?_) hgood
      apply hapart _ List.mem_cons_self
      rw [testName_some hname, builtPath_injective hsame]

/-- An action after the build, with test programs that are apart from the project's program. -/
def Later (artifactOf : List Input → Text) (programs : Programs) (invocation : Invocation) (cfg : Config)
    (disk disk' : Disk) : Prop :=
  ∃ action entries code, (∀ names, entries = some names → Apart invocation cfg names) ∧
    Acts artifactOf programs invocation cfg entries action disk code disk'

theorem Later.good (h : Later artifactOf programs invocation cfg disk disk') (htarget : cfg.target = "exe".toList)
    (hspares : Spares programs (builtPath invocation.projectRoot cfg.output))
    (hgood : Good artifactOf (builtPath invocation.projectRoot cfg.output)
      (fullPath invocation.projectRoot cfg.source) disk) :
    Good artifactOf (builtPath invocation.projectRoot cfg.output) (fullPath invocation.projectRoot cfg.source) disk' := by
  obtain ⟨action, entries, code, hapart, hacts⟩ := h
  cases hacts with
  | build hruns => exact hruns.good htarget (fun _ => rfl) hgood
  | check hruns => exact hruns.good htarget (fun _ => rfl) hgood
  | clean hremoved => exact hgood.sparing (hremoved _)
  | noTests => exact hgood
  | test hentries hruns => exact hruns.good hspares (hapart _ hentries) hgood
  | refuse => exact hgood
  | run _ hprogram => exact hgood.sparing (hspares _ _ _ _ hprogram)
  | none => exact hgood

theorem runTarget_ok {path : Text} (h : runTarget invocation cfg disk = .ok path) :
    cfg.target = "exe".toList ∧ path = builtPath invocation.projectRoot cfg.output ∧
      disk.artifactIsUsable path "exe".toList = true := by
  rw [runTarget] at h
  split at h
  · cases h
  · rename_i htarget
    obtain ⟨output, houtput, h⟩ := bind_eq_ok.mp h
    split at h
    · rename_i husable
      cases h
      exact ⟨not_not.mp htarget, buildPath_ok houtput, husable⟩
    · cases h

/-- **What run executes.** After a build that succeeded, and whatever actions were performed since, the file that the run
    action executes was compiled from the source of the project, when no test program has the name of the project's
    program without being its source. -/
theorem run_executes_built {disk₀ disk₁ disk₂ : Disk} {entries : Option (List Text)} {path : Text}
    (hbuild : Acts artifactOf programs invocation cfg entries .build disk₀ 0 disk₁)
    (hcache : ∀ plan disk', runCompiler invocation cfg false disk₀ = (disk', .ok (.upToDate plan)) →
      disk'.bytesAt plan.output = some (artifactOf plan.inputs))
    (hspares : Spares programs (builtPath invocation.projectRoot cfg.output))
    (hlater : ReflTransGen (Later artifactOf programs invocation cfg) disk₁ disk₂)
    (hrun : runTarget invocation cfg disk₂ = .ok path) :
    ∃ bytes, disk₂.bytesAt path = some bytes ∧
      CompiledFrom artifactOf (fullPath invocation.projectRoot cfg.source) bytes := by
  obtain ⟨htarget, rfl, husable⟩ := runTarget_ok hrun
  have hgood : Good artifactOf (builtPath invocation.projectRoot cfg.output)
      (fullPath invocation.projectRoot cfg.source) disk₂ := by
    clear husable hrun
    induction hlater with
    | refl =>
        cases hbuild with
        | build hruns => exact hruns.built rfl htarget hcache
    | tail _ hstep ih => exact hstep.good htarget hspares ih
  obtain ⟨bytes, hbytes⟩ := Disk.bytesAt_of_usable husable
  exact ⟨bytes, hbytes, hgood husable bytes hbytes⟩

/-! ## A small project -/

/-- The disk once the artifact of a hosted program is in its place. -/
def compiledDisk (plan : Plan) (artifact : File) (disk : Disk) : Disk :=
  ((((disk.set plan.temporaryOutput none).set plan.temporaryAssembly none).set plan.temporaryOutput
    (some artifact)).set plan.temporaryAssembly none).rename plan.temporaryOutput plan.output

/-- A run of a hosted program's compiler that goes through. -/
theorem finishes_built (hassembly : plan.hasAssembly = true) (htoolong : plan.temporaryAssembly.length < pathCap)
    (hmanifest : plan.manifest.length < pathCap) (htemporary : plan.temporaryManifest.length < pathCap) {artifact : File}
    (hmade : artifact.bytes = artifactOf plan.inputs)
    (husable : (((disk.set plan.temporaryOutput none).set plan.temporaryAssembly none).set plan.temporaryOutput
      (some artifact)).artifactIsUsable plan.temporaryOutput plan.target = true) :
    Finishes artifactOf plan .clearArtifact disk (.built plan.output plan.target)
      (recordedDisk plan 2 (compiledDisk plan artifact disk)) := by
  let cleared := (disk.set plan.temporaryOutput none).set plan.temporaryAssembly none
  let compiled := cleared.set plan.temporaryOutput (some artifact)
  have hplace : compiled plan.temporaryOutput = some artifact := Disk.set_same
  have hready : (compiled.set plan.temporaryAssembly none) plan.temporaryOutput = some artifact :=
    (Disk.set_other plan.temporaryOutput_ne_temporaryAssembly).trans hplace
  have hafter : afterInspection plan = .dropAssembly := by
    rw [afterInspection, hassembly]
    rfl
  have husableStep := @Operation.usable artifactOf plan _ husable
  rw [hafter] at husableStep
  apply Finishes.next (.clearArtifactFirst .gone hassembly htoolong)
  apply Finishes.next (.clearAssembly .gone)
  apply Finishes.next (.compilerWrites fun _ hne _ => Disk.set_other hne)
  apply Finishes.next (.compilerSucceeds fun file hfile => by cases hplace.symm.trans hfile; exact hmade)
  apply Finishes.next husableStep
  apply Finishes.next .dropAssembly
  apply Finishes.next (.publish hready)
  exact finishes_records hmanifest htemporary 2

def exeInvocation : Invocation := ⟨⟨"/p".toList, []⟩, [], none, 7, false⟩

def exeConfig : Config := ⟨"main.vnt".toList, "app".toList, "exe".toList, "vnt".toList, "/t".toList⟩

def exeFile (executable : Bool) : File := ⟨['x'], true, 1, executable, .regular⟩

/-- The project with one test program. -/
def exeDisk (test : Text) : Disk := fun path =>
  if path = "/t".toList ∨ path = "/p/build".toList then some ⟨[], false, 1, false, .directory⟩
  else if path = "/t/vnt".toList then some (exeFile true)
  else if path = "/p/main.vnt".toList ∨ path = "/p/vbuild.properties".toList ∨ path = "/p/build.vbuild".toList ∨
      path = "/p/tests/".toList ++ test ∨ (hostedInputs.map ("/t/".toList ++ ·)).contains path then some (exeFile false)
  else none

def exePlan (source output : Text) (current : Bool) : Plan where
  source := source
  compiler := "/t/vnt".toList
  mode := "--compile".toList
  target := "exe".toList
  output := output
  processId := 7
  inputs :=
    [source, "vbuild.properties".toList, "build.vbuild".toList, "/t/vnt".toList, source].map (.file · ['x']) ++
      hostedInputs.map fun input => .file ("/t/".toList ++ input) ['x']
  current := current

/-- A compiler that writes down where the source is. -/
def pathOf : List Input → Text
  | .file path _ :: _ => path
  | _ => []

def exeArtifact (source : Text) : File := ⟨source, true, 2, true, .regular⟩

/-- Programs that do nothing. -/
def idle : Programs := fun _ disk status disk' => status = 0 ∧ disk' = disk

/-- The disk after a build of `source` as `output`. -/
def exeBuilt (source output : Text) (current : Bool) (disk : Disk) : Disk :=
  recordedDisk (exePlan source output current) 2
    (compiledDisk (exePlan source output current) (exeArtifact source) disk)

/-- A build that has to run goes through. -/
theorem exe_builds {cfg : Config} {source output : Text} {current : Bool}
    (hdecision : (runCompiler exeInvocation cfg false disk).2 = .ok (.compile (exePlan source output current)))
    (hdisk : (runCompiler exeInvocation cfg false disk).1 = disk)
    (hlength : output.length + 64 < pathCap) (hsource : source ≠ []) :
    CompilerRuns pathOf exeInvocation cfg false disk 0 (exeBuilt source output current disk) := by
  have hdigits : (Nat.toDigits 10 7).length = 1 := by decide
  have hwords : ".vbuild-".toList.length = 8 ∧ "artifact".toList.length = 8 ∧ "manifest".toList.length = 8 ∧
      ".s".toList.length = 2 ∧ ".vbuild-inputs".toList.length = 14 := by decide
  obtain ⟨hword, hartifact, hmanifest, hassembly, hinputs⟩ := hwords
  refine .compiles (Prod.ext hdisk hdecision) (finishes_built rfl ?_ ?_ ?_ rfl ?_)
  · rw [Plan.temporaryAssembly, Plan.temporaryOutput, Plan.temporaryPath]
    simp only [List.length_append, List.length_cons, hword, hartifact, hassembly]
    show output.length + 8 + 8 + ((Nat.toDigits 10 7).length + 1) + 2 < pathCap
    omega
  · rw [Plan.manifest, manifestPath, List.length_append, hinputs]
    show output.length + 14 < pathCap
    omega
  · rw [Plan.temporaryManifest, Plan.temporaryPath, Plan.manifest, manifestPath]
    simp only [List.length_append, List.length_cons, hword, hmanifest, hinputs]
    show output.length + 14 + 8 + 8 + ((Nat.toDigits 10 7).length + 1) < pathCap
    omega
  · rw [Disk.artifactIsUsable, Disk.set_same]
    simp [exeArtifact, hsource]

theorem idle_spares {output : Text} : Spares idle output := by
  rintro path disk status disk' ⟨-, rfl⟩
  exact .inl rfl

/-- The only test program, built and executed. -/
theorem exe_tests {filename name : Text} {test : Config} {disk₁ : Disk} (hname : testName filename = some name)
    (hlength : (testPath filename).length < pathCap)
    (hregular : disk.isRegularFile (fullPath exeInvocation.projectRoot (testPath filename)) = true)
    (htest : testConfig exeConfig filename name = .ok test)
    (hruns : CompilerRuns pathOf exeInvocation test false disk 0 disk₁)
    (hpath : (builtPath exeInvocation.projectRoot name).length < pathCap) :
    Acts pathOf idle exeInvocation exeConfig (some [filename]) .test disk 0 disk₁ := by
  have hbuilt : buildPath exeInvocation.projectRoot name "vbuild: test output path too long." =
      .ok (builtPath exeInvocation.projectRoot name) := if_pos hpath
  exact .test rfl (.test hname hlength hregular (.executed htest hruns hbuilt ⟨rfl, rfl⟩) .done)

def mainSource : Text := "/p/main.vnt".toList

def appOutput : Text := "/p/build/app".toList

/-- What building the program and then a test program of another name, or of the same, decides. -/
theorem exe_decides :
    (runCompiler exeInvocation exeConfig false (exeDisk "smoke.vnt".toList)).2 =
      .ok (.compile (exePlan mainSource appOutput false)) ∧
    (runCompiler exeInvocation exeConfig false (exeDisk "app.vnt".toList)).2 =
      .ok (.compile (exePlan mainSource appOutput false)) ∧
    (runCompiler exeInvocation { exeConfig with source := testPath "smoke.vnt".toList, output := "smoke".toList } false
        (exeBuilt mainSource appOutput false (exeDisk "smoke.vnt".toList))).2 =
      .ok (.compile (exePlan "/p/tests/smoke.vnt".toList "/p/build/smoke".toList false)) ∧
    (runCompiler exeInvocation { exeConfig with source := testPath "app.vnt".toList, output := "app".toList } false
        (exeBuilt mainSource appOutput false (exeDisk "app.vnt".toList))).2 =
      .ok (.compile (exePlan "/p/tests/app.vnt".toList appOutput true)) := by
  decide +kernel

theorem smokeTest_spared : ∃ bytes,
    (exeBuilt "/p/tests/smoke.vnt".toList "/p/build/smoke".toList false
      (exeBuilt mainSource appOutput false (exeDisk "smoke.vnt".toList))).bytesAt appOutput = some bytes ∧
    CompiledFrom pathOf mainSource bytes := by
  obtain ⟨hbuild, -, htest, -⟩ := exe_decides
  have htested := exe_tests (show testName "smoke.vnt".toList = some "smoke".toList by decide) (by decide)
    (by decide) rfl (exe_builds htest rfl (by decide) (by decide)) (by decide)
  refine run_executes_built (.build (exe_builds hbuild rfl (by decide) (by decide)) : Acts _ _ _ _ none _ _ _ _) ?_ idle_spares
    (.single ⟨_, _, _, ?_, htested⟩) rfl
  · -- the first build had to run
    intro plan disk' hcurrent
    rw [hcurrent] at hbuild
    cases hbuild
  · -- the only test program is not named like the project's
    rintro names hnames filename hmem hname
    cases hnames
    cases List.mem_singleton.mp hmem
    exact absurd hname (by decide)

/-- A test program with the name of the project's program is what the run action executes. -/
theorem appTest_executed : ∃ disk₁ disk₂,
    Acts pathOf idle exeInvocation exeConfig (some ["app.vnt".toList]) .build (exeDisk "app.vnt".toList) 0 disk₁ ∧
    Acts pathOf idle exeInvocation exeConfig (some ["app.vnt".toList]) .test disk₁ 0 disk₂ ∧
    runTarget exeInvocation exeConfig disk₂ = .ok appOutput ∧
    disk₂.bytesAt appOutput = some "/p/tests/app.vnt".toList ∧
    ¬ CompiledFrom pathOf mainSource "/p/tests/app.vnt".toList := by
  obtain ⟨-, hbuild, -, htest⟩ := exe_decides
  have htested := exe_tests (show testName "app.vnt".toList = some "app".toList by decide) (by decide)
    (by decide) rfl (exe_builds htest rfl (by decide) (by decide)) (by decide)
  refine ⟨_, _, .build (exe_builds hbuild rfl (by decide) (by decide)), htested, rfl, rfl, ?_⟩
  have hne : "/p/tests/app.vnt".toList ≠ mainSource := by decide
  rintro ⟨contents, rest, hbytes⟩
  exact hne hbytes

end Vnt.VBuild
