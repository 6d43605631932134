import Vnt.VBuild.Compiler

/-!
# `VBuild.Publish` — from the compiler to the manifest

When the compiler has to run, the rest of `run_compiler` is a row of operations on files: old temporary files are removed,
the compiler writes new ones, the artifact is renamed into its place and then the manifest. A `Phase` says which
operation is next. Between two of them vbuild can be killed; then the disk stays as it is.

The compiler is a process of its own. It writes the temporary output and the assembly beside it and nothing else, and
when it succeeds the output holds what `artifactOf` says for the inputs that went into the fingerprint.
-/

namespace Vnt.VBuild

open Modules

/-- What a run ends with. -/
inductive Report where
  | failed (message : String)
  | built (output target : Text)
  deriving DecidableEq, Repr

/-- What `run_compiler` returns. -/
def Report.exitCode : Report → Int
  | .failed _ => 1
  | .built _ _ => 0

/-- The operation that is next. -/
inductive Phase where
  | clearArtifact
  | clearAssembly
  | compile
  /-- The temporary output is removed, and the assembly too when the flag is set; then the run fails. -/
  | discard (assembly : Bool) (message : String)
  | discardAssembly (message : String)
  | inspect
  | dropAssembly
  | publish
  | clearManifest
  | createManifest
  | writeManifest
  | discardManifest (message : String)
  | publishManifest
  deriving DecidableEq, Repr

/-- The artifact is in its place, the manifest is not. -/
def Phase.unrecorded : Phase → Bool
  | .clearManifest | .createManifest | .writeManifest | .discardManifest _ | .publishManifest => true
  | _ => false

/-- Where a run of the compiler stands. -/
inductive Progress where
  | running (phase : Phase)
  | done (report : Report)
  deriving DecidableEq, Repr

variable (artifactOf : List Input → Text) (plan : Plan)

/-- What comes after the temporary output was inspected. -/
def afterInspection : Phase := if plan.hasAssembly then .dropAssembly else .publish

/-- What `fopen(temporary, "w")` leaves: an empty file, executable only if it was there and executable before. -/
def opened (disk : Disk) (path : Text) (mtime : Int) (kind : Kind) : Disk :=
  disk.set path (some ⟨[], true, mtime, ((disk path).map File.executable).getD false, kind⟩)

/-- What a write to an open file leaves. -/
def written (disk : Disk) (path bytes : Text) (mtime : Int) : Disk :=
  disk.set path ((disk path).map fun file => { file with bytes := bytes, mtime := mtime })

/-- One operation of a run. -/
inductive Operation : Phase → Disk → Progress → Disk → Prop where
  | clearArtifact {disk disk' : Disk} : Removes plan.temporaryOutput disk disk' → plan.hasAssembly = false →
      Operation .clearArtifact disk (.running .compile) disk'
  | clearArtifactFirst {disk disk' : Disk} : Removes plan.temporaryOutput disk disk' → plan.hasAssembly = true →
      plan.temporaryAssembly.length < pathCap → Operation .clearArtifact disk (.running .clearAssembly) disk'
  | assemblyTooLong {disk disk' : Disk} : Removes plan.temporaryOutput disk disk' → plan.hasAssembly = true →
      pathCap ≤ plan.temporaryAssembly.length →
      Operation .clearArtifact disk (.done (.failed "vbuild: temporary assembly path is too long.")) disk'
  | clearAssembly {disk disk' : Disk} : Removes plan.temporaryAssembly disk disk' →
      Operation .clearAssembly disk (.running .compile) disk'
  /-- The compiler writes. -/
  | compilerWrites {disk disk' : Disk} :
      (∀ path, path ≠ plan.temporaryOutput → path ≠ plan.temporaryAssembly → disk' path = disk path) →
      Operation .compile disk (.running .compile) disk'
  | compilerFails {disk : Disk} :
      Operation .compile disk (.running (.discard plan.hasAssembly "vbuild: compiler command failed.")) disk
  | compilerSucceeds {disk : Disk} : (∀ file, disk plan.temporaryOutput = some file → file.bytes = artifactOf plan.inputs) →
      Operation .compile disk (.running .inspect) disk
  | discard {disk disk' : Disk} {message : String} : Removes plan.temporaryOutput disk disk' →
      Operation (.discard false message) disk (.done (.failed message)) disk'
  | discardBoth {disk disk' : Disk} {message : String} : Removes plan.temporaryOutput disk disk' →
      Operation (.discard true message) disk (.running (.discardAssembly message)) disk'
  | discardAssembly {disk disk' : Disk} {message : String} : Removes plan.temporaryAssembly disk disk' →
      Operation (.discardAssembly message) disk (.done (.failed message)) disk'
  | usable {disk : Disk} : disk.artifactIsUsable plan.temporaryOutput plan.target = true →
      Operation .inspect disk (.running (afterInspection plan)) disk
  | unusable {disk : Disk} : disk.artifactIsUsable plan.temporaryOutput plan.target = false →
      Operation .inspect disk (.running (.discard plan.hasAssembly
        ("vbuild: compiler returned success but temporary output is not a usable artifact: " ++
          String.ofList plan.temporaryOutput))) disk
  | dropAssembly {disk : Disk} :
      Operation .dropAssembly disk (.running .publish) (disk.set plan.temporaryAssembly none)
  | assemblyStays {disk : Disk} {file : File} : disk plan.temporaryAssembly = some file → file.kind = .directory →
      Operation .dropAssembly disk (.running (.discard false
        ("vbuild: cannot remove temporary assembly '" ++ String.ofList plan.temporaryAssembly ++ "'"))) disk
  | publish {disk : Disk} {file : File} : disk plan.temporaryOutput = some file →
      Operation .publish disk (.running .clearManifest) (disk.rename plan.temporaryOutput plan.output)
  | publishFails {disk : Disk} :
      Operation .publish disk (.running (.discard false ("vbuild: cannot replace '" ++ String.ofList plan.output ++
        "' with '" ++ String.ofList plan.temporaryOutput ++ "'"))) disk
  | manifestTooLong {disk : Disk} : pathCap ≤ plan.manifest.length →
      Operation .clearManifest disk (.done (.failed "vbuild: build manifest path is too long.")) disk
  | temporaryTooLong {disk : Disk} : plan.manifest.length < pathCap → pathCap ≤ plan.temporaryManifest.length →
      Operation .clearManifest disk (.done (.failed ("vbuild: temporary path is too long for '" ++
        String.ofList plan.manifest ++ "'."))) disk
  | clearManifest {disk disk' : Disk} : plan.manifest.length < pathCap → plan.temporaryManifest.length < pathCap →
      Removes plan.temporaryManifest disk disk' → Operation .clearManifest disk (.running .createManifest) disk'
  | createFails {disk : Disk} :
      Operation .createManifest disk (.done (.failed ("vbuild: cannot write temporary manifest '" ++
        String.ofList plan.temporaryManifest ++ "'"))) disk
  | createManifest {disk : Disk} {mtime : Int} {kind : Kind} :
      (∀ file, disk plan.temporaryManifest = some file → file.kind ≠ .directory) →
      (kind = .regular ∨ kind = .throughLink) →
      Operation .createManifest disk (.running .writeManifest) (opened disk plan.temporaryManifest mtime kind)
  | writeManifest {disk : Disk} {mtime : Int} :
      Operation .writeManifest disk (.running .publishManifest)
        (written disk plan.temporaryManifest (manifestLine plan.fingerprint ++ ['\n']) mtime)
  | writeFails {disk : Disk} {bytes : Text} {mtime : Int} :
      Operation .writeManifest disk (.running (.discardManifest ("vbuild: failed writing temporary manifest '" ++
        String.ofList plan.temporaryManifest ++ "'."))) (written disk plan.temporaryManifest bytes mtime)
  | discardManifest {disk disk' : Disk} {message : String} : Removes plan.temporaryManifest disk disk' →
      Operation (.discardManifest message) disk (.done (.failed message)) disk'
  | publishManifest {disk : Disk} {file : File} : disk plan.temporaryManifest = some file →
      Operation .publishManifest disk (.done (.built plan.output plan.target))
        (disk.rename plan.temporaryManifest plan.manifest)
  | publishManifestFails {disk : Disk} :
      Operation .publishManifest disk (.running (.discardManifest ("vbuild: cannot replace '" ++
        String.ofList plan.manifest ++ "' with '" ++ String.ofList plan.temporaryManifest ++ "'"))) disk

/-- A run of the compiler from an operation to its report. -/
inductive Finishes : Phase → Disk → Report → Disk → Prop where
  | last {phase : Phase} {disk disk' : Disk} {report : Report} :
      Operation artifactOf plan phase disk (.done report) disk' → Finishes phase disk report disk'
  | next {phase phase' : Phase} {disk disk₁ disk' : Disk} {report : Report} :
      Operation artifactOf plan phase disk (.running phase') disk₁ → Finishes phase' disk₁ report disk' →
      Finishes phase disk report disk'

variable {artifactOf plan} {disk : Disk}

/-- The disk once the manifest is in its place. -/
def recordedDisk (plan : Plan) (mtime : Int) (disk : Disk) : Disk :=
  (written (opened (disk.set plan.temporaryManifest none) plan.temporaryManifest mtime .regular) plan.temporaryManifest
    (manifestLine plan.fingerprint ++ ['\n']) mtime).rename plan.temporaryManifest plan.manifest

/-- The operations after the rename of the artifact, when they all succeed. -/
theorem finishes_records (hmanifest : plan.manifest.length < pathCap)
    (htemporary : plan.temporaryManifest.length < pathCap) (mtime : Int) :
    Finishes artifactOf plan .clearManifest disk (.built plan.output plan.target) (recordedDisk plan mtime disk) := by
  let cleared := disk.set plan.temporaryManifest none
  let created := opened cleared plan.temporaryManifest mtime .regular
  have hgone : ∀ file, cleared plan.temporaryManifest = some file → file.kind ≠ .directory := by
    intro file hfile
    have hnone : cleared plan.temporaryManifest = none := Disk.set_same
    cases hnone.symm.trans hfile
  have hwritten : written created plan.temporaryManifest (manifestLine plan.fingerprint ++ ['\n']) mtime
      plan.temporaryManifest = (created plan.temporaryManifest).map _ := Disk.set_same
  have hopened : created plan.temporaryManifest = some _ := Disk.set_same
  rw [hopened] at hwritten
  apply Finishes.next (.clearManifest hmanifest htemporary .gone)
  apply Finishes.next (.createManifest hgone (.inl rfl))
  apply Finishes.next .writeManifest
  exact .last (.publishManifest hwritten)

end Vnt.VBuild
