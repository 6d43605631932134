import Mathlib.Data.Set.Function
import Vnt.VBuild.Publish

/-!
# `VBuild.Incremental` — is an artifact that is up to date the right one?

A history of a project is a row of steps: an edit of the inputs, the start of a run, one operation of a run, its end, or
a kill of vbuild. What must hold between two runs is that a manifest vouches for its artifact (`Sound`): when it says the
fingerprint of some inputs, the artifact is what the compiler makes of them. A run keeps this until it renames the
artifact. From then on the manifest speaks of another artifact, until it is renamed too; a run that ends in between leaves
the two as they are.
-/

namespace Vnt.VBuild

open Modules Relation

/-- Between two steps: the files, and the run that is going on with its next operation. -/
structure Machine where
  disk : Disk
  run : Option (Plan × Phase)

/-- Between two disks, a file either keeps its bytes or goes. -/
def KeepsFile (path : Text) (disk disk' : Disk) : Prop :=
  ∀ bytes, disk'.bytesAt path = some bytes → disk.bytesAt path = some bytes

/-- Between two disks, nobody but vbuild writes an artifact or a manifest. -/
def Keeps (outputs : Set Text) (disk disk' : Disk) : Prop :=
  ∀ output ∈ outputs, KeepsFile output disk disk' ∧ KeepsFile (manifestPath output) disk disk'

/-- One step of a history. Every run holds the lock, so the inputs are edited between runs only. -/
inductive Step (artifactOf : List Input → Text) (outputs : Set Text) : Machine → Machine → Prop where
  | edit {disk disk' : Disk} : Keeps outputs disk disk' → Step artifactOf outputs ⟨disk, none⟩ ⟨disk', none⟩
  /-- A run that ends with its decision, or is killed before. -/
  | decide {disk : Disk} (invocation : Invocation) (cfg : Config) (check : Bool) :
      Step artifactOf outputs ⟨disk, none⟩ ⟨(runCompiler invocation cfg check disk).1, none⟩
  | start {disk disk' : Disk} {invocation : Invocation} {cfg : Config} {plan : Plan} :
      runCompiler invocation cfg false disk = (disk', .ok (.compile plan)) →
      Step artifactOf outputs ⟨disk, none⟩ ⟨disk', some (plan, .clearArtifact)⟩
  | operate {disk disk' : Disk} {plan : Plan} {phase phase' : Phase} :
      Operation artifactOf plan phase disk (.running phase') disk' →
      Step artifactOf outputs ⟨disk, some (plan, phase)⟩ ⟨disk', some (plan, phase')⟩
  | finish {disk disk' : Disk} {plan : Plan} {phase : Phase} {report : Report} :
      Operation artifactOf plan phase disk (.done report) disk' →
      Step artifactOf outputs ⟨disk, some (plan, phase)⟩ ⟨disk', none⟩
  | kill {disk : Disk} {plan : Plan} {phase : Phase} :
      Step artifactOf outputs ⟨disk, some (plan, phase)⟩ ⟨disk, none⟩

/-- The manifest in place says a fingerprint. -/
def Says (disk : Disk) (output fingerprint : Text) : Prop :=
  ∃ bytes, disk.bytesAt (manifestPath output) = some bytes ∧ manifestSays bytes fingerprint = true

/-- What a run builds is one of the outputs, from inputs that the history knows, and no temporary file of the run has
    the name of an output. -/
structure Tracked (outputs : Set Text) (seen : Set (List Input)) (plan : Plan) : Prop where
  output : plan.output ∈ outputs
  inputs : plan.inputs ∈ seen
  temporaryOutput : plan.temporaryOutput ∉ outputs
  temporaryAssembly : plan.temporaryAssembly ∉ outputs
  temporaryManifest : plan.temporaryManifest ∉ outputs

/-- A step is orderly when it starts tracked runs only, and when it does not end a run between the two renames, where
    the artifact is the new one, as long as the manifest is one of other inputs. -/
structure Orderly (outputs : Set Text) (seen : Set (List Input)) (s s' : Machine) : Prop where
  tracked : ∀ plan phase, s'.run = some (plan, phase) → Tracked outputs seen plan
  recorded : ∀ plan phase, s.run = some (plan, phase) → phase.unrecorded = true → s'.run = none →
    s'.disk plan.manifest = s.disk plan.manifest →
    ∀ fingerprint, Says s.disk plan.output fingerprint → fingerprint = plan.fingerprint

def OrderlyStep (artifactOf : List Input → Text) (outputs : Set Text) (seen : Set (List Input)) (s s' : Machine) : Prop :=
  Step artifactOf outputs s s' ∧ Orderly outputs seen s s'

/-! ## The invariant -/

section

variable (artifactOf : List Input → Text) (outputs : Set Text) (seen : Set (List Input)) (plan : Plan)

/-- The manifest of an output vouches for the artifact. -/
def SoundAt (output : Text) (disk : Disk) : Prop :=
  ∀ inputs ∈ seen, Says disk output (fingerprint inputs) →
    ∀ bytes, disk.bytesAt output = some bytes → bytes = artifactOf inputs

def Sound (disk : Disk) : Prop := ∀ output ∈ outputs, SoundAt artifactOf seen output disk

/-- The artifact is in its place; its manifest may be another's. -/
structure Replaced (disk : Disk) : Prop where
  others : ∀ output ∈ outputs, output ≠ plan.output → SoundAt artifactOf seen output disk
  artifact : Holds plan.output (artifactOf plan.inputs) disk

/-- What holds before each operation. -/
def Before : Phase → Disk → Prop
  | .inspect, disk | .dropAssembly, disk | .publish, disk =>
      Sound artifactOf outputs seen disk ∧ Holds plan.temporaryOutput (artifactOf plan.inputs) disk
  | .clearManifest, disk | .createManifest, disk | .writeManifest, disk | .discardManifest _, disk =>
      Replaced artifactOf outputs seen plan disk
  | .publishManifest, disk =>
      Replaced artifactOf outputs seen plan disk ∧
        Holds plan.temporaryManifest (manifestLine plan.fingerprint ++ ['\n']) disk
  | _, disk => Sound artifactOf outputs seen disk

/-- The invariant of a history. -/
def Invariant (s : Machine) : Prop :=
  match s.run with
  | none => Sound artifactOf outputs seen s.disk
  | some (plan, phase) => Tracked outputs seen plan ∧ Before artifactOf outputs seen plan phase s.disk

end

variable {artifactOf : List Input → Text} {outputs : Set Text} {seen : Set (List Input)} {plan : Plan}
  {disk disk' : Disk}

/-! ## What an operation leaves alone -/

theorem SoundAt.keep {output : Text} (h : SoundAt artifactOf seen output disk) (hkeeps : KeepsFile output disk disk')
    (hmanifest : KeepsFile (manifestPath output) disk disk') : SoundAt artifactOf seen output disk' := by
  rintro inputs hinputs ⟨saved, hsaved, hclaims⟩ bytes hbytes
  exact h inputs hinputs ⟨saved, hmanifest saved hsaved, hclaims⟩ bytes (hkeeps bytes hbytes)

theorem Sound.keep (h : Sound artifactOf outputs seen disk) (hkeeps : Keeps outputs disk disk') :
    Sound artifactOf outputs seen disk' :=
  fun output houtput => (h output houtput).keep (hkeeps output houtput).1 (hkeeps output houtput).2

theorem Replaced.keep (h : Replaced artifactOf outputs seen plan disk) (htracked : Tracked outputs seen plan)
    (hkeeps : Keeps outputs disk disk') : Replaced artifactOf outputs seen plan disk' where
  others := fun output houtput hne => (h.others output houtput hne).keep (hkeeps output houtput).1
    (hkeeps output houtput).2
  artifact := fun bytes hbytes => h.artifact bytes ((hkeeps _ htracked.output).1 bytes hbytes)

theorem keepsFile_of_eq {path : Text} (h : disk' path = disk path) : KeepsFile path disk disk' := by
  intro bytes hbytes
  rwa [Disk.bytesAt, h] at hbytes

/-- A change of temporary files only keeps the artifacts and the manifests. -/
theorem Tracked.keeps (h : Tracked outputs seen plan)
    (hagree : ∀ path, path ≠ plan.temporaryOutput → path ≠ plan.temporaryAssembly → path ≠ plan.temporaryManifest →
      disk' path = disk path) : Keeps outputs disk disk' := by
  intro output houtput
  constructor
  · apply keepsFile_of_eq
    exact hagree output (ne_of_mem_of_not_mem houtput h.temporaryOutput)
      (ne_of_mem_of_not_mem houtput h.temporaryAssembly) (ne_of_mem_of_not_mem houtput h.temporaryManifest)
  · apply keepsFile_of_eq
    exact hagree _ (plan.manifestPath_ne_temporaryOutput output) (plan.manifestPath_ne_temporaryAssembly output)
      (plan.manifestPath_ne_temporaryManifest output)

theorem Tracked.removes {path : Text} (h : Tracked outputs seen plan)
    (hpath : path = plan.temporaryOutput ∨ path = plan.temporaryAssembly ∨ path = plan.temporaryManifest)
    (hremoves : Removes path disk disk') : Keeps outputs disk disk' := by
  apply h.keeps
  intro other houtput hassembly hmanifest
  apply hremoves.other
  rcases hpath with rfl | rfl | rfl
  · exact houtput
  · exact hassembly
  · exact hmanifest

/-! ## One operation -/

/-- What holds after an operation of `phase` on `disk`. -/
def After (artifactOf : List Input → Text) (outputs : Set Text) (seen : Set (List Input)) (plan : Plan) (phase : Phase)
    (disk : Disk) : Progress → Disk → Prop
  | .running phase', disk' => Before artifactOf outputs seen plan phase' disk'
  | .done _, disk' => Sound artifactOf outputs seen disk' ∨
      (phase.unrecorded = true ∧ Replaced artifactOf outputs seen plan disk' ∧
        disk' plan.manifest = disk plan.manifest)

theorem holds_written {path bytes : Text} {mtime : Int} : Holds path bytes (written disk path bytes mtime) := by
  intro found hfound
  rw [Disk.bytesAt, written, Disk.set_same] at hfound
  obtain ⟨file, hfile, hbytes⟩ := Option.bind_eq_some_iff.mp hfound
  obtain ⟨old, -, rfl⟩ := Option.map_eq_some_iff.mp hfile
  split at hbytes
  · cases hbytes
  · exact (Option.some.inj hbytes).symm

/-- Renaming the artifact leaves the other outputs as they were. -/
theorem replaced_of_publish (htracked : Tracked outputs seen plan)
    (hseparate : ∀ output ∈ outputs, manifestPath output ∉ outputs) (hsound : Sound artifactOf outputs seen disk)
    (hready : Holds plan.temporaryOutput (artifactOf plan.inputs) disk) :
    Replaced artifactOf outputs seen plan (disk.rename plan.temporaryOutput plan.output) := by
  constructor
  · intro output houtput hne
    apply (hsound output houtput).keep
    · exact keepsFile_of_eq (Disk.rename_other (ne_of_mem_of_not_mem houtput htracked.temporaryOutput) hne)
    · exact keepsFile_of_eq (Disk.rename_other (plan.manifestPath_ne_temporaryOutput output)
        (ne_of_mem_of_not_mem htracked.output (hseparate output houtput)).symm)
  · intro bytes hbytes
    rw [Disk.bytesAt_rename (ne_of_mem_of_not_mem htracked.output htracked.temporaryOutput)] at hbytes
    exact hready bytes hbytes

/-- Renaming the manifest makes it vouch for the artifact. -/
theorem sound_of_record (hcollision : Set.InjOn fingerprint seen) (htracked : Tracked outputs seen plan)
    (hseparate : ∀ output ∈ outputs, manifestPath output ∉ outputs)
    (hreplaced : Replaced artifactOf outputs seen plan disk)
    (hready : Holds plan.temporaryManifest (manifestLine plan.fingerprint ++ ['\n']) disk) :
    Sound artifactOf outputs seen (disk.rename plan.temporaryManifest plan.manifest) := by
  have hartifact : ∀ output ∈ outputs, KeepsFile output disk (disk.rename plan.temporaryManifest plan.manifest) :=
    fun output houtput => keepsFile_of_eq (Disk.rename_other
      (ne_of_mem_of_not_mem houtput htracked.temporaryManifest)
      (ne_of_mem_of_not_mem houtput (hseparate _ htracked.output)))
  intro output houtput
  by_cases hsame : output = plan.output
  · subst hsame
    rintro inputs hinputs ⟨saved, hsaved, hclaims⟩ bytes hbytes
    have hsaved' : saved = manifestLine plan.fingerprint ++ ['\n'] := by
      apply hready
      rw [← hsaved]
      exact (Disk.bytesAt_rename (plan.manifestPath_ne_temporaryManifest plan.output)).symm
    subst hsaved'
    obtain rfl := hcollision hinputs htracked.inputs (eq_of_manifestSays hclaims)
    exact hreplaced.artifact bytes (hartifact _ houtput bytes hbytes)
  · apply (hreplaced.others output houtput hsame).keep (hartifact output houtput)
    exact keepsFile_of_eq (Disk.rename_other (plan.manifestPath_ne_temporaryManifest output)
      (fun heq => hsame (manifestPath_injective heq)))

/-- **One operation keeps what must hold.** -/
theorem Operation.after (hcollision : Set.InjOn VBuild.fingerprint seen)
    (hseparate : ∀ output ∈ outputs, manifestPath output ∉ outputs) (htracked : Tracked outputs seen plan)
    {phase : Phase} {progress : Progress} (h : Operation artifactOf plan phase disk progress disk')
    (hbefore : Before artifactOf outputs seen plan phase disk) :
    After artifactOf outputs seen plan phase disk progress disk' := by
  have hne : plan.manifest ≠ plan.temporaryManifest := plan.manifestPath_ne_temporaryManifest plan.output
  cases h with
  | clearArtifact hremoves => exact Sound.keep hbefore (htracked.removes (.inl rfl) hremoves)
  | clearArtifactFirst hremoves => exact Sound.keep hbefore (htracked.removes (.inl rfl) hremoves)
  | assemblyTooLong hremoves => exact .inl (Sound.keep hbefore (htracked.removes (.inl rfl) hremoves))
  | clearAssembly hremoves => exact Sound.keep hbefore (htracked.removes (.inr (.inl rfl)) hremoves)
  | compilerWrites hagree =>
      exact Sound.keep hbefore (htracked.keeps fun path houtput hassembly _ => hagree path houtput hassembly)
  | compilerFails => exact hbefore
  | compilerSucceeds hmade => exact ⟨hbefore, holds_of_file hmade⟩
  | discard hremoves => exact .inl (Sound.keep hbefore (htracked.removes (.inl rfl) hremoves))
  | discardBoth hremoves => exact Sound.keep hbefore (htracked.removes (.inl rfl) hremoves)
  | discardAssembly hremoves => exact .inl (Sound.keep hbefore (htracked.removes (.inr (.inl rfl)) hremoves))
  | usable =>
      show Before _ _ _ _ (afterInspection plan) _
      rw [afterInspection]
      split
      · exact hbefore
      · exact hbefore
  | unusable => exact hbefore.1
  | dropAssembly =>
      refine ⟨hbefore.1.keep (htracked.removes (.inr (.inl rfl)) .gone), fun bytes hbytes => hbefore.2 bytes ?_⟩
      exact keepsFile_of_eq (Disk.set_other plan.temporaryOutput_ne_temporaryAssembly) bytes hbytes
  | assemblyStays => exact hbefore.1
  | publish => exact replaced_of_publish htracked hseparate hbefore.1 hbefore.2
  | publishFails => exact hbefore.1
  | manifestTooLong => exact .inr ⟨rfl, hbefore, rfl⟩
  | temporaryTooLong => exact .inr ⟨rfl, hbefore, rfl⟩
  | clearManifest _ _ hremoves => exact Replaced.keep hbefore htracked (htracked.removes (.inr (.inr rfl)) hremoves)
  | createFails => exact .inr ⟨rfl, hbefore, rfl⟩
  | createManifest =>
      exact Replaced.keep hbefore htracked (htracked.keeps fun _ _ _ hother => Disk.set_other hother)
  | writeManifest =>
      exact ⟨Replaced.keep hbefore htracked (htracked.keeps fun _ _ _ hother => Disk.set_other hother), holds_written⟩
  | writeFails =>
      exact Replaced.keep hbefore htracked (htracked.keeps fun _ _ _ hother => Disk.set_other hother)
  | discardManifest hremoves =>
      exact .inr ⟨rfl, Replaced.keep hbefore htracked (htracked.removes (.inr (.inr rfl)) hremoves), hremoves.other hne⟩
  | publishManifest => exact .inl (sound_of_record hcollision htracked hseparate hbefore.1 hbefore.2)
  | publishManifestFails => exact hbefore.1

/-! ## The decision -/

theorem runCompiler_keeps (invocation : Invocation) (cfg : Config) (check : Bool) (disk : Disk) :
    Keeps outputs disk (runCompiler invocation cfg check disk).1 := by
  intro output _
  exact ⟨fun bytes hbytes => by rwa [runCompiler_bytesAt] at hbytes, fun bytes hbytes => by rwa [runCompiler_bytesAt] at hbytes⟩

theorem says_of_manifestMatches {output fingerprint : Text} (h : manifestMatches disk output fingerprint = true) :
    Says disk output fingerprint := by
  rw [manifestMatches, Bool.and_eq_true] at h
  obtain ⟨-, h⟩ := h
  split at h
  · cases h
  · rename_i contents hcontents
    obtain ⟨file, -, hcontents⟩ := Option.bind_eq_some_iff.mp hcontents
    split at hcontents
    · exact ⟨contents, hcontents, h⟩
    · cases hcontents

/-! ## A history -/

/-- At the end of a run between the renames the manifest still vouches, when it says no other fingerprint. -/
theorem Replaced.sound (hcollision : Set.InjOn fingerprint seen) (htracked : Tracked outputs seen plan)
    (hreplaced : Replaced artifactOf outputs seen plan disk)
    (hclaims : ∀ fingerprint, Says disk plan.output fingerprint → fingerprint = plan.fingerprint) :
    Sound artifactOf outputs seen disk := by
  intro output houtput
  by_cases hsame : output = plan.output
  · subst hsame
    intro inputs hinputs hinputsSays bytes hbytes
    obtain rfl := hcollision hinputs htracked.inputs (hclaims _ hinputsSays)
    exact hreplaced.artifact bytes hbytes
  · exact hreplaced.others output houtput hsame

theorem Before.ends {phase : Phase} (h : Before artifactOf outputs seen plan phase disk) :
    Sound artifactOf outputs seen disk ∨
      (phase.unrecorded = true ∧ Replaced artifactOf outputs seen plan disk) := by
  cases phase with
  | inspect | dropAssembly | publish => exact .inl h.1
  | clearManifest | createManifest | writeManifest | discardManifest => exact .inr ⟨rfl, h⟩
  | publishManifest => exact .inr ⟨rfl, h.1⟩
  | clearArtifact | clearAssembly | compile | discard | discardAssembly => exact .inl h

/-- **An orderly step keeps the invariant.** -/
theorem Invariant.step (hcollision : Set.InjOn fingerprint seen)
    (hseparate : ∀ output ∈ outputs, manifestPath output ∉ outputs) {s s' : Machine}
    (h : Invariant artifactOf outputs seen s) (hstep : Step artifactOf outputs s s')
    (horderly : Orderly outputs seen s s') : Invariant artifactOf outputs seen s' := by
  cases hstep with
  | edit hkeeps => exact Sound.keep h hkeeps
  | decide invocation cfg check => exact Sound.keep h (runCompiler_keeps invocation cfg check _)
  | @start disk disk' invocation cfg plan hrun =>
      have hkeeps : Keeps outputs disk (runCompiler invocation cfg false disk).1 :=
        runCompiler_keeps invocation cfg false disk
      rw [hrun] at hkeeps
      exact ⟨horderly.tracked _ _ rfl, Sound.keep h hkeeps⟩
  | operate hoperation => exact ⟨h.1, hoperation.after hcollision hseparate h.1 h.2⟩
  | finish hoperation =>
      rcases hoperation.after hcollision hseparate h.1 h.2 with hsound | ⟨hphase, hreplaced, hmanifest⟩
      · exact hsound
      · apply hreplaced.sound hcollision h.1
        intro fingerprint hclaims
        apply horderly.recorded _ _ rfl hphase rfl hmanifest
        obtain ⟨bytes, hbytes, hline⟩ := hclaims
        exact ⟨bytes, keepsFile_of_eq hmanifest bytes hbytes, hline⟩
  | kill =>
      rcases h.2.ends with hsound | ⟨hphase, hreplaced⟩
      · exact hsound
      · exact hreplaced.sound hcollision h.1 (horderly.recorded _ _ rfl hphase rfl rfl)

theorem Invariant.history (hcollision : Set.InjOn fingerprint seen)
    (hseparate : ∀ output ∈ outputs, manifestPath output ∉ outputs) {start s : Machine}
    (h : Invariant artifactOf outputs seen start)
    (hhistory : ReflTransGen (OrderlyStep artifactOf outputs seen) start s) :
    Invariant artifactOf outputs seen s := by
  induction hhistory with
  | refl => exact h
  | tail _ hstep ih => exact ih.step hcollision hseparate hstep.1 hstep.2

/-- Without manifests nothing is vouched for. -/
theorem invariant_of_fresh {start : Machine} (hidle : start.run = none)
    (hfresh : ∀ output ∈ outputs, start.disk.bytesAt (manifestPath output) = none) :
    Invariant artifactOf outputs seen start := by
  rw [Invariant, hidle]
  rintro output houtput inputs - ⟨bytes, hbytes, -⟩
  rw [hfresh output houtput] at hbytes
  cases hbytes

/-- **Incremental builds.** In a history that starts without manifests and has orderly steps only, an artifact that is
    reported as up to date is what the compiler makes of the inputs as they are now. -/
theorem upToDate_exact (hcollision : Set.InjOn fingerprint seen)
    (hseparate : ∀ output ∈ outputs, manifestPath output ∉ outputs) {start s : Machine} (hidle : start.run = none)
    (hfresh : ∀ output ∈ outputs, start.disk.bytesAt (manifestPath output) = none)
    (hhistory : ReflTransGen (OrderlyStep artifactOf outputs seen) start s)
    (hrun : s.run = none) {invocation : Invocation} {cfg : Config}
    (hreport : runCompiler invocation cfg false s.disk = (disk', .ok (.upToDate plan)))
    (houtput : plan.output ∈ outputs) (hinputs : plan.inputs ∈ seen) :
    s.disk.bytesAt plan.output = some (artifactOf plan.inputs) := by
  have hsound := (invariant_of_fresh hidle hfresh).history hcollision hseparate hhistory
  rw [Invariant, hrun] at hsound
  have hsame : ∀ path, disk'.bytesAt path = s.disk.bytesAt path := by
    intro path
    rw [← runCompiler_bytesAt invocation cfg false s.disk path, hreport]
  obtain ⟨-, husable, hmatches⟩ := runCompiler_upToDate hreport
  obtain ⟨bytes, hbytes⟩ := Disk.bytesAt_of_usable husable
  obtain ⟨saved, hsaved, hclaims⟩ := says_of_manifestMatches hmatches
  rw [hsame] at hbytes hsaved
  rw [hbytes, hsound plan.output houtput plan.inputs hinputs ⟨saved, hsaved, hclaims⟩ bytes hbytes]

/-! ## A run that goes through -/

theorem Tracked.orderly (h : Tracked outputs seen plan) {phase phase' : Phase} :
    Orderly outputs seen ⟨disk, some (plan, phase)⟩ ⟨disk', some (plan, phase')⟩ := by
  constructor
  · intro plan' phase'' hrun
    obtain ⟨rfl, -⟩ := Prod.mk.inj (Option.some.inj hrun)
    exact h
  · intro _ _ _ _ hrun
    cases hrun

/-- The disk once the artifact is in its place. -/
def publishedDisk (plan : Plan) (artifact : File) (disk : Disk) : Disk :=
  ((disk.set plan.temporaryOutput none).set plan.temporaryOutput (some artifact)).rename plan.temporaryOutput plan.output

/-- A compiler that writes a usable artifact, up to the rename. -/
theorem run_publishes (htracked : Tracked outputs seen plan) (hassembly : plan.hasAssembly = false) {artifact : File}
    (hmade : artifact.bytes = artifactOf plan.inputs)
    (husable : ((disk.set plan.temporaryOutput none).set plan.temporaryOutput (some artifact)).artifactIsUsable
      plan.temporaryOutput plan.target = true) :
    ReflTransGen (OrderlyStep artifactOf outputs seen) ⟨disk, some (plan, .clearArtifact)⟩
      ⟨publishedDisk plan artifact disk, some (plan, .clearManifest)⟩ := by
  let cleared := disk.set plan.temporaryOutput none
  let compiled := cleared.set plan.temporaryOutput (some artifact)
  have hclear : OrderlyStep artifactOf outputs seen ⟨disk, some (plan, .clearArtifact)⟩
      ⟨cleared, some (plan, .compile)⟩ := ⟨.operate (.clearArtifact .gone hassembly), htracked.orderly⟩
  have hwrite : OrderlyStep artifactOf outputs seen ⟨cleared, some (plan, .compile)⟩
      ⟨compiled, some (plan, .compile)⟩ :=
    ⟨.operate (.compilerWrites fun _ hne _ => Disk.set_other hne), htracked.orderly⟩
  have hsucceed : OrderlyStep artifactOf outputs seen ⟨compiled, some (plan, .compile)⟩
      ⟨compiled, some (plan, .inspect)⟩ := by
    refine ⟨.operate (.compilerSucceeds fun file hfile => ?_), htracked.orderly⟩
    have hplace : compiled plan.temporaryOutput = some artifact := Disk.set_same
    cases hplace.symm.trans hfile
    exact hmade
  have hinspect : OrderlyStep artifactOf outputs seen ⟨compiled, some (plan, .inspect)⟩
      ⟨compiled, some (plan, .publish)⟩ := by
    have hafter : afterInspection plan = .publish := by
      rw [afterInspection, hassembly]
      rfl
    exact ⟨hafter ▸ .operate (.usable husable), htracked.orderly⟩
  have hpublish : OrderlyStep artifactOf outputs seen ⟨compiled, some (plan, .publish)⟩
      ⟨publishedDisk plan artifact disk, some (plan, .clearManifest)⟩ :=
    ⟨.operate (.publish Disk.set_same), htracked.orderly⟩
  exact ((((ReflTransGen.single hclear).tail hwrite).tail hsucceed).tail hinspect).tail hpublish

/-- A run that builds its artifact is orderly up to its end. -/
theorem Finishes.history (hcollision : Set.InjOn VBuild.fingerprint seen)
    (hseparate : ∀ output ∈ outputs, manifestPath output ∉ outputs) (htracked : Tracked outputs seen plan)
    {phase : Phase} {report : Report} (h : Finishes artifactOf plan phase disk report disk')
    (hreport : report.exitCode = 0) (hbefore : Before artifactOf outputs seen plan phase disk) :
    ReflTransGen (OrderlyStep artifactOf outputs seen) ⟨disk, some (plan, phase)⟩ ⟨disk', none⟩ := by
  induction h with
  | next hoperation _ ih =>
      exact .head ⟨.operate hoperation, htracked.orderly⟩
        (ih hreport (hoperation.after hcollision hseparate htracked hbefore))
  | @last phase disk disk' report hoperation =>
      refine .single ⟨.finish hoperation, nofun, ?_⟩
      rintro _ _ hrun - - hsame fingerprint ⟨saved, hsaved, hclaims⟩
      obtain ⟨rfl, -⟩ := Prod.mk.inj (Option.some.inj hrun)
      cases report with
      | failed message => cases hreport
      | built output target =>
          cases hoperation with
          | publishManifest =>
              -- the manifest that was in place is the one that was written
              have hrenamed : (disk.rename plan.temporaryManifest plan.manifest).bytesAt plan.manifest =
                  disk.bytesAt plan.temporaryManifest :=
                Disk.bytesAt_rename (plan.manifestPath_ne_temporaryManifest plan.output)
              rw [Disk.bytesAt_congr hsame] at hrenamed
              obtain rfl := hbefore.2 saved (hrenamed.symm.trans hsaved)
              exact eq_of_manifestSays hclaims

/-! ## A small project -/

def asmInvocation : Invocation := ⟨⟨"/p".toList, []⟩, [], none, 7, false⟩

def asmConfig : Config := ⟨"main.vnt".toList, "app".toList, "asm".toList, "vnt".toList, "/t".toList⟩

def asmOutput : Text := "/p/build/app.s".toList

def textFile (text : Text) : File := ⟨text, true, 1, false, .regular⟩

/-- The project with the source `source`. -/
def asmDisk (source : Text) : Disk := fun path =>
  if path = "/p/main.vnt".toList then some (textFile source)
  else if path = "/p/vbuild.properties".toList then some (textFile "project.name=app".toList)
  else if path = "/p/build.vbuild".toList then some (textFile "target asm".toList)
  else if path = "/t/vnt".toList then some ⟨"vnt".toList, true, 1, true, .regular⟩
  else if path = "/t".toList ∨ path = "/p/build".toList then some ⟨[], false, 1, false, .directory⟩
  else none

def asmPlan (source : Text) (current : Bool) : Plan where
  source := "/p/main.vnt".toList
  compiler := "/t/vnt".toList
  mode := "--emit-asm".toList
  target := "asm".toList
  output := asmOutput
  processId := 7
  inputs :=
    [.file "/p/main.vnt".toList source, .file "vbuild.properties".toList "project.name=app".toList,
      .file "build.vbuild".toList "target asm".toList, .file "/t/vnt".toList "vnt".toList,
      .file "/p/main.vnt".toList source]
  current := current

/-- A compiler that writes the source behind a semicolon. -/
def commentOf : List Input → Text
  | .file _ contents :: _ => ';' :: contents
  | _ => []

def asmArtifact (source : Text) : File := ⟨';' :: source, true, 2, false, .regular⟩

def asmOutputs : Set Text := {asmOutput}

/-- The source is one text or the other. -/
def asmSeen : Set (List Input) := {(asmPlan ['1'] false).inputs, (asmPlan ['2'] false).inputs}

theorem asm_separate : ∀ output ∈ asmOutputs, manifestPath output ∉ asmOutputs := by
  rintro _ rfl
  show manifestPath asmOutput ≠ asmOutput
  decide

theorem asm_fresh : ∀ output ∈ asmOutputs, (asmDisk ['1']).bytesAt (manifestPath output) = none := by
  rintro _ rfl
  rfl

theorem asm_tracked {source : Text} (h : source = ['1'] ∨ source = ['2']) (current : Bool) :
    Tracked asmOutputs asmSeen (asmPlan source current) where
  output := rfl
  inputs := by
    rcases h with rfl | rfl
    · exact .inl rfl
    · exact .inr rfl
  temporaryOutput := by
    show (asmPlan [] false).temporaryOutput ≠ asmOutput
    decide
  temporaryAssembly := by
    show (asmPlan [] false).temporaryAssembly ≠ asmOutput
    decide
  temporaryManifest := by
    show (asmPlan [] false).temporaryManifest ≠ asmOutput
    decide

/-- The compiler writes what can be published. -/
theorem asm_publishes {source : Text} (h : source = ['1'] ∨ source = ['2']) (current : Bool) (disk : Disk) :
    ReflTransGen (OrderlyStep commentOf asmOutputs asmSeen) ⟨disk, some (asmPlan source current, .clearArtifact)⟩
      ⟨publishedDisk (asmPlan source current) (asmArtifact source) disk,
        some (asmPlan source current, .clearManifest)⟩ := by
  refine run_publishes (asm_tracked h current) rfl rfl ?_
  rw [Disk.artifactIsUsable, Disk.set_same]
  rfl

/-- The disk after the first build. -/
def builtDisk : Disk :=
  recordedDisk (asmPlan ['1'] false) 2 (publishedDisk (asmPlan ['1'] false) (asmArtifact ['1']) (asmDisk ['1']))

/-- The disk when the second build was killed between the two renames and the first source is back. -/
def revertedDisk : Disk :=
  (publishedDisk (asmPlan ['2'] true) (asmArtifact ['2'])
    (builtDisk.set "/p/main.vnt".toList (some (textFile ['2'])))).set "/p/main.vnt".toList (some (textFile ['1']))

/-- What the project's builds decide, and what the last one leaves alone. -/
theorem asm_decides : fingerprint (asmPlan ['1'] false).inputs ≠ fingerprint (asmPlan ['2'] false).inputs ∧
    (runCompiler asmInvocation asmConfig false (asmDisk ['1'])).2 = .ok (.compile (asmPlan ['1'] false)) ∧
    (runCompiler asmInvocation asmConfig false builtDisk).2 = .ok (.upToDate (asmPlan ['1'] true)) ∧
    (runCompiler asmInvocation asmConfig false (builtDisk.set "/p/main.vnt".toList (some (textFile ['2'])))).2 =
      .ok (.compile (asmPlan ['2'] true)) ∧
    (runCompiler asmInvocation asmConfig false revertedDisk).2 = .ok (.upToDate (asmPlan ['1'] true)) ∧
    revertedDisk.bytesAt asmOutput = some [';', '2'] := by
  decide +kernel

theorem asm_collision : Set.InjOn fingerprint asmSeen := by
  have hne := asm_decides.1
  rintro _ (rfl | rfl) _ (rfl | rfl) h
  · rfl
  · exact absurd h hne
  · exact absurd h.symm hne
  · rfl

/-- The first build goes through. -/
theorem asm_builds : ReflTransGen (OrderlyStep commentOf asmOutputs asmSeen) ⟨asmDisk ['1'], none⟩ ⟨builtDisk, none⟩ := by
  obtain ⟨-, hcompile, -⟩ := asm_decides
  have htracked := asm_tracked (.inl rfl : ['1'] = ['1'] ∨ ['1'] = ['2']) false
  have hstart : OrderlyStep commentOf asmOutputs asmSeen ⟨asmDisk ['1'], none⟩
      ⟨asmDisk ['1'], some (asmPlan ['1'] false, .clearArtifact)⟩ := by
    refine ⟨.start (Prod.ext rfl hcompile), fun plan phase h => ?_, nofun⟩
    obtain ⟨rfl, -⟩ := Prod.mk.inj (Option.some.inj h)
    exact htracked
  -- the artifact is in its place, and its manifest is still to be written
  have hpublished := (asm_publishes (.inl rfl) false (asmDisk ['1'])).head hstart
  have hinvariant : Invariant commentOf asmOutputs asmSeen _ :=
    (invariant_of_fresh rfl asm_fresh).history asm_collision asm_separate hpublished
  exact hpublished.trans ((finishes_records (by decide) (by decide) 2).history asm_collision asm_separate
    htracked rfl hinvariant.2)

theorem rebuilt_exact : builtDisk.bytesAt asmOutput = some [';', '1'] :=
  have hcurrent : runCompiler asmInvocation asmConfig false builtDisk = (builtDisk, .ok (.upToDate (asmPlan ['1'] true))) :=
    Prod.ext rfl asm_decides.2.2.1
  upToDate_exact asm_collision asm_separate rfl asm_fresh asm_builds rfl hcurrent rfl (.inl rfl)

theorem asm_edit {source : Text} {disk : Disk} : Step commentOf asmOutputs ⟨disk, none⟩
    ⟨disk.set "/p/main.vnt".toList (some (textFile source)), none⟩ := by
  apply Step.edit
  rintro _ rfl
  exact ⟨keepsFile_of_eq (Disk.set_other (by decide)), keepsFile_of_eq (Disk.set_other (by decide))⟩

/-- Up to date, with the artifact of the other source. -/
theorem killed_upToDate : Set.InjOn fingerprint asmSeen ∧
    (∀ output ∈ asmOutputs, (asmDisk ['1']).bytesAt (manifestPath output) = none) ∧
    ∃ s : Machine, ReflTransGen (Step commentOf asmOutputs) ⟨asmDisk ['1'], none⟩ s ∧
    s.run = none ∧
    runCompiler asmInvocation asmConfig false s.disk = (s.disk, .ok (.upToDate (asmPlan ['1'] true))) ∧
    s.disk.bytesAt asmOutput = some [';', '2'] ∧ commentOf (asmPlan ['1'] true).inputs = [';', '1'] := by
  obtain ⟨-, -, -, hcompile, hcurrent, hartifact⟩ := asm_decides
  refine ⟨asm_collision, asm_fresh, ⟨revertedDisk, none⟩, ?_, rfl, Prod.ext rfl hcurrent, hartifact, rfl⟩
  have hbuilt : ReflTransGen (Step commentOf asmOutputs) ⟨asmDisk ['1'], none⟩ ⟨builtDisk, none⟩ :=
    asm_builds.lift id fun _ _ h => h.1
  -- the second run gets as far as the first rename
  have hsteps : ReflTransGen (Step commentOf asmOutputs) _ _ :=
    (asm_publishes (.inr rfl) true (builtDisk.set "/p/main.vnt".toList (some (textFile ['2'])))).lift id fun _ _ h => h.1
  exact ((((hbuilt.tail asm_edit).tail (.start (Prod.ext rfl hcompile))).trans hsteps).tail .kill).tail asm_edit

end Vnt.VBuild
