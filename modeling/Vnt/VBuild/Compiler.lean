import Vnt.Lib.Prog
import Vnt.VBuild.Disk

/-!
# `VBuild.Compiler` — does the compiler have to run?

`run_compiler` first only reads: it finds the source, the toolchain and the compiler, collects the import graph, compares
times and computes the fingerprint. Then it knows whether the artifact is up to date.
-/

namespace Vnt.VBuild

open Modules Lib

/-- The properties that `run_compiler` reads. -/
structure Config where
  source : Text
  output : Text
  target : Text
  compiler : Text
  toolchain : Text
  deriving DecidableEq, Repr

/-- What a run of vbuild knows besides its configuration. -/
structure Invocation extends Project where
  moduleDependencies : List Text
  /-- The value of `PATH`. -/
  path : Option Text
  processId : Nat
  forceBuild : Bool
  deriving DecidableEq, Repr

/-! ## Finding things -/

/-- The loop of `configure_module_path` over the repositories for one dependency. -/
def findDependency (projectRoot : Text) (disk : Disk) (dependency : Text) : List Text → Except String Text
  | [] =>
      .error ("vbuild: dependency '" ++ String.ofList dependency ++ "' was not found in any local repository.")
  | repository :: rest => do
      let root ← absolutePath projectRoot repository
      let candidate := root ++ '/' :: dependency
      if candidate.length ≥ pathCap then
        .error ("vbuild: dependency path is too long: " ++ String.ofList dependency)
      else if disk.isRegularFile candidate then .ok candidate
      else findDependency projectRoot disk dependency rest

/-- `configure_module_path`, with `resolved_dependencies`. -/
def configureModulePath (invocation : Invocation) (disk : Disk) : Except String (List Text) := do
  let _ ← invocation.searchPath
  invocation.moduleDependencies.mapM fun dependency =>
    findDependency invocation.projectRoot disk dependency invocation.repositories

/-- `ensure_build_dir`: the disk with the directory. -/
def ensureBuildDir (projectRoot : Text) (disk : Disk) : Except String Disk :=
  match disk (fullPath projectRoot "build".toList) with
  | none => .ok (disk.set (fullPath projectRoot "build".toList) (some ⟨[], false, 0, false, .directory⟩))
  | some file =>
      if file.kind = .directory then .ok disk else .error "vbuild: build exists but is not a directory."

/-- `resolve_path_compiler` from an entry of `PATH` on. -/
def resolvePathCompiler (disk : Disk) (name workingDirectory : Text) : List Text → Option Text
  | [] => none
  | entry :: rest =>
      let directory :=
        if entry = [] then workingDirectory
        else if entry.head? = some '/' then entry
        else workingDirectory ++ '/' :: entry
      let candidate := directory ++ '/' :: name
      if entry.length ≥ pathCap ∨ directory.length ≥ pathCap ∨ candidate.length ≥ pathCap then none
      else if disk.compilerFileIsUsable candidate then some candidate
      else resolvePathCompiler disk name workingDirectory rest

def resolveCompiler (invocation : Invocation) (disk : Disk) (configured toolchain : Text) : Except String Text :=
  let notFound := "vbuild: compiler '" ++ String.ofList configured ++
    "' was not found as an executable in the toolchain or PATH."
  if configured.contains '/' || configured.contains '\\' then do
    let candidate ← absolutePath invocation.projectRoot configured
    if disk.compilerFileIsUsable candidate then .ok candidate else .error notFound
  else if (toolchain ++ '/' :: configured).length ≥ pathCap then .error ""
  else if disk.compilerFileIsUsable (toolchain ++ '/' :: configured) then .ok (toolchain ++ '/' :: configured)
  else
    match invocation.path.bind fun path => resolvePathCompiler disk configured toolchain (searchRoots path) with
    | some compiler => .ok compiler
    | none => .error notFound

/-! ## The output -/

/-- The mode of the compiler and the suffix of the artifact. -/
def targetMode (target : Text) : Except String (Text × Text) :=
  if target = "exe".toList then .ok ("--compile".toList, [])
  else if target = "elf".toList then .ok ("--build-freestanding".toList, ".elf".toList)
  else if target = "asm".toList then .ok ("--emit-asm".toList, ".s".toList)
  else if target = "freestanding-asm".toList then .ok ("--emit-freestanding-asm".toList, ".s".toList)
  else .error ("vbuild: unsupported target '" ++ String.ofList target ++ "'.")

/-- The suffix, unless the name has it already. -/
def appendedSuffix (target output suffix : Text) : Text :=
  if target = "exe".toList ∧ ".exe".toList.isSuffixOf output = true then []
  else if target = "elf".toList ∧ ".elf".toList.isSuffixOf output = true then []
  else if (target = "asm".toList ∨ target = "freestanding-asm".toList) ∧ ".s".toList.isSuffixOf output = true then []
  else suffix

/-- A path in `build/`. -/
def buildPath (projectRoot name : Text) (message : String) : Except String Text := do
  let directory ← absolutePath projectRoot "build".toList
  if (directory ++ '/' :: name).length < pathCap then .ok (directory ++ '/' :: name) else .error message

/-! ## Is everything older than the output? -/

/-- `imports_are_current`, with `imported_files`. -/
def importsAreCurrent (disk : Disk) (project : Project) (source output : Text) : Except String (List Text × Bool) :=
  match collectImportGraph disk.files project source with
  | none => .error ""
  | some imported =>
      .ok (imported, match disk output with
        | none => false
        | some artifact => imported.all fun path =>
            match disk path with
            | none => false
            | some input => ! (artifact.mtime < input.mtime))

/-- The loop of `build_inputs_are_current`. -/
def inputsOlder (disk : Disk) (artifact : File) (toolchain : Text) : List Text → Except String Bool
  | [] => .ok true
  | input :: rest =>
      let path := toolchain ++ '/' :: input
      if path.length ≥ pathCap then .error ("vbuild: build input path is too long: " ++ String.ofList input)
      else
        match disk path with
        | none => .error ("vbuild: required build input is missing: " ++ String.ofList path)
        | some file => if artifact.mtime < file.mtime then .ok false else inputsOlder disk artifact toolchain rest

def buildInputsAreCurrent (disk : Disk) (output target toolchain : Text) : Except String Bool :=
  if targetInputs target = [] then .ok true
  else
    match disk output with
    | none => .ok false
    | some artifact => inputsOlder disk artifact toolchain (targetInputs target)

/-! ## The decision -/

/-- What `run_compiler` knows when it decides. -/
structure Plan where
  source : Text
  compiler : Text
  mode : Text
  target : Text
  output : Text
  processId : Nat
  inputs : List Input
  /-- `import_graph_current && build_inputs_current`. -/
  current : Bool
  deriving DecidableEq, Repr

namespace Plan

variable (plan : Plan)

def fingerprint : Text := VBuild.fingerprint plan.inputs

/-- `make_temporary_path`. -/
def temporaryPath (destination : Text) (kind : String) : Text :=
  destination ++ ".vbuild-".toList ++ kind.toList ++ '-' :: Nat.toDigits 10 plan.processId

def temporaryOutput : Text := plan.temporaryPath plan.output "artifact"

def temporaryAssembly : Text := plan.temporaryOutput ++ ".s".toList

/-- The compiler leaves an assembly file beside these artifacts. -/
def hasAssembly : Bool := plan.target = "exe".toList || plan.target = "elf".toList

def manifest : Text := manifestPath plan.output

def temporaryManifest : Text := plan.temporaryPath plan.manifest "manifest"

end Plan

inductive Decision where
  /-- The compiler only checks the source. -/
  | check (compiler source : Text)
  | upToDate (plan : Plan)
  | compile (plan : Plan)
  deriving DecidableEq, Repr

/-- `run_compiler` up to the fingerprint, once the build directory is there. -/
def planCompile (invocation : Invocation) (cfg : Config) (dependencies : List Text) (source toolchain compiler : Text)
    (disk : Disk) : Except String Plan := do
  let (mode, suffix) ← targetMode cfg.target
  let output ← buildPath invocation.projectRoot (cfg.output ++ appendedSuffix cfg.target cfg.output suffix)
    "vbuild: output path is too long."
  let (imported, importGraphCurrent) ← importsAreCurrent disk invocation.toProject source output
  let buildInputsCurrent ← buildInputsAreCurrent disk output cfg.target toolchain
  let inputs ←
    fingerprintInputs invocation.projectRoot disk source compiler toolchain cfg.target imported dependencies
  .ok ⟨source, compiler, mode, cfg.target, output, invocation.processId, inputs,
    importGraphCurrent && buildInputsCurrent⟩

/-- The rest of the decision. -/
def decideCompile (invocation : Invocation) (disk : Disk) (plan : Plan) : Except String Decision :=
  if ! invocation.forceBuild && plan.current && disk.artifactIsUsable plan.output plan.target &&
      manifestMatches disk plan.output plan.fingerprint then .ok (.upToDate plan)
  else if plan.temporaryOutput.length < pathCap then .ok (.compile plan)
  else .error ("vbuild: temporary path is too long for '" ++ String.ofList plan.output ++ "'.")

/-- `run_compiler` from the toolchain on. -/
def decideRun (invocation : Invocation) (cfg : Config) (check : Bool) (dependencies : List Text) (disk : Disk) :
    Except String Decision := do
  let source ← absolutePath invocation.projectRoot cfg.source
  let toolchain ← absolutePath invocation.projectRoot cfg.toolchain
  if ! disk.isDirectory toolchain then
    .error ("vbuild: toolchain directory not found or path invalid: " ++ String.ofList cfg.toolchain)
  else do
    let compiler ← resolveCompiler invocation disk cfg.compiler toolchain
    if check then .ok (.check compiler source)
    else do
      let plan ← planCompile invocation cfg dependencies source toolchain compiler disk
      decideCompile invocation disk plan

/-- `run_compiler` up to its decision: the disk afterwards, and the decision. -/
def runCompiler (invocation : Invocation) (cfg : Config) (check : Bool) (disk : Disk) : Disk × Except String Decision :=
  match configureModulePath invocation disk with
  | .error message => (disk, .error message)
  | .ok dependencies =>
      if ! disk.isRegularFile (fullPath invocation.projectRoot cfg.source) then
        (disk, .error ("vbuild: source is not a readable regular file: " ++ String.ofList cfg.source))
      else
        match if check then .ok disk else ensureBuildDir invocation.projectRoot disk with
        | .error message => (disk, .error message)
        | .ok disk => (disk, decideRun invocation cfg check dependencies disk)

/-! ## Names that do not clash -/

theorem manifestPath_injective : Function.Injective manifestPath := fun _ _ h => List.append_cancel_right h

theorem manifestPath_end (output : Text) : ∃ start, manifestPath output = start ++ ['t', 's'] := by
  have hword : ".vbuild-inputs".toList = ".vbuild-inpu".toList ++ ['t', 's'] := by decide
  exact ⟨output ++ ".vbuild-inpu".toList, (congrArg (output ++ ·) hword).trans (List.append_assoc _ _ _).symm⟩

/-- A temporary path ends with a digit. -/
theorem temporaryPath_ne_manifestPath (plan : Plan) (destination output : Text) (kind : String) :
    plan.temporaryPath destination kind ≠ manifestPath output := by
  intro h
  obtain ⟨digits, last, hdigits⟩ : ∃ digits last, Nat.toDigits 10 plan.processId = digits ++ [last] :=
    ⟨_, _, (List.dropLast_append_getLast Nat.toDigits_ne_nil).symm⟩
  have hlast : last.isDigit := Nat.isDigit_of_mem_toDigits (by decide : 0 < 10) (le_refl 10) (by rw [hdigits]; simp)
  obtain ⟨start, hend⟩ := manifestPath_end output
  have hpath : (destination ++ ".vbuild-".toList ++ kind.toList ++ '-' :: digits) ++ [last] =
      (start ++ ['t']) ++ ['s'] :=
    calc (destination ++ ".vbuild-".toList ++ kind.toList ++ '-' :: digits) ++ [last]
      _ = plan.temporaryPath destination kind := by
          rw [Plan.temporaryPath, hdigits, List.append_assoc, List.cons_append]
      _ = start ++ ['t', 's'] := h.trans hend
      _ = (start ++ ['t']) ++ ['s'] := (List.append_assoc start ['t'] ['s']).symm
  obtain ⟨-, hlast'⟩ := List.append_inj' hpath rfl
  cases hlast'
  exact absurd hlast (by decide)

namespace Plan

theorem manifestPath_ne_temporaryOutput (plan : Plan) (output : Text) : manifestPath output ≠ plan.temporaryOutput :=
  (temporaryPath_ne_manifestPath plan plan.output output _).symm

theorem manifestPath_ne_temporaryManifest (plan : Plan) (output : Text) : manifestPath output ≠ plan.temporaryManifest :=
  (temporaryPath_ne_manifestPath plan plan.manifest output _).symm

/-- An assembly path ends with `.s`. -/
theorem manifestPath_ne_temporaryAssembly (plan : Plan) (output : Text) : manifestPath output ≠ plan.temporaryAssembly := by
  intro h
  obtain ⟨start, hend⟩ := manifestPath_end output
  obtain ⟨-, hdot⟩ := List.append_inj' (h.symm.trans hend) rfl
  exact absurd hdot (by decide)

theorem output_ne_temporaryOutput (plan : Plan) : plan.output ≠ plan.temporaryOutput := by
  intro h
  rw [temporaryOutput, temporaryPath, List.append_assoc, List.append_assoc, List.self_eq_append_right] at h
  have hlength := congrArg List.length h
  simp at hlength

theorem temporaryOutput_ne_temporaryAssembly (plan : Plan) : plan.temporaryOutput ≠ plan.temporaryAssembly := by
  intro h
  have hempty : ".s".toList = [] := List.self_eq_append_right.mp h
  exact absurd hempty (by decide)

end Plan

/-! ## What is known after a decision -/

variable {disk disk' : Disk} {plan : Plan}

/-- Deciding makes at most a directory. -/
theorem ensureBuildDir_disk {projectRoot : Text} (h : ensureBuildDir projectRoot disk = .ok disk') (path : Text) :
    disk' path = disk path ∨ (disk path = none ∧ ∃ file, disk' path = some file ∧ file.kind = .directory) := by
  rw [ensureBuildDir] at h
  split at h
  · rename_i hnone
    obtain rfl := Except.ok.inj h
    by_cases hpath : path = fullPath projectRoot "build".toList
    · subst hpath
      exact .inr ⟨hnone, _, Disk.set_same, rfl⟩
    · exact .inl (Disk.set_other hpath)
  · split at h
    · rw [Except.ok.inj h]
      exact .inl rfl
    · cases h

theorem runCompiler_disk (invocation : Invocation) (cfg : Config) (check : Bool) (disk : Disk) (path : Text) :
    (runCompiler invocation cfg check disk).1 path = disk path ∨
      (disk path = none ∧ ∃ file, (runCompiler invocation cfg check disk).1 path = some file ∧ file.kind = .directory) := by
  unfold runCompiler
  split
  · exact .inl rfl
  · split
    · exact .inl rfl
    · split
      · exact .inl rfl
      · rename_i disk' hdisk
        split at hdisk
        · rw [Except.ok.inj hdisk]
          exact .inl rfl
        · exact ensureBuildDir_disk hdisk path

theorem runCompiler_bytesAt (invocation : Invocation) (cfg : Config) (check : Bool) (disk : Disk) (path : Text) :
    (runCompiler invocation cfg check disk).1.bytesAt path = disk.bytesAt path := by
  rcases runCompiler_disk invocation cfg check disk path with hsame | ⟨hnone, file, hfile, hkind⟩
  · exact Disk.bytesAt_congr hsame
  · rw [Disk.bytesAt, Disk.bytesAt, hfile, hnone]
    exact if_pos hkind

/-! ## What a plan is for -/

theorem fingerprintFile_ok {projectRoot path : Text} {input : Input} (h : fingerprintFile projectRoot disk path = .ok input) :
    ∃ contents, input = .file path contents := by
  rw [fingerprintFile] at h
  split at h
  · split at h
    · cases h
      exact ⟨_, rfl⟩
    · cases h
  · cases h

/-- The source is the first input. -/
theorem fingerprintInputs_source {projectRoot source compiler toolchain target : Text} {imported dependencies : List Text}
    {inputs : List Input}
    (h : fingerprintInputs projectRoot disk source compiler toolchain target imported dependencies = .ok inputs) :
    ∃ contents rest, inputs = .file source contents :: rest := by
  obtain ⟨configured, hconfigured, h⟩ := bind_eq_ok.mp h
  obtain ⟨tool, -, h⟩ := bind_eq_ok.mp h
  obtain ⟨graph, -, h⟩ := bind_eq_ok.mp h
  obtain ⟨modules, -, h⟩ := bind_eq_ok.mp h
  obtain ⟨runtime, -, h⟩ := bind_eq_ok.mp h
  rw [List.mapM_cons] at hconfigured
  obtain ⟨first, hfirst, hconfigured⟩ := bind_eq_ok.mp hconfigured
  obtain ⟨others, -, hconfigured⟩ := bind_eq_ok.mp hconfigured
  obtain ⟨contents, rfl⟩ := fingerprintFile_ok hfirst
  cases hconfigured
  cases h
  exact ⟨contents, _, rfl⟩

/-- The path of a name in `build/`. -/
def builtPath (projectRoot name : Text) : Text := fullPath projectRoot "build".toList ++ '/' :: name

theorem buildPath_ok {projectRoot name path : Text} {message : String} (h : buildPath projectRoot name message = .ok path) :
    path = builtPath projectRoot name := by
  obtain ⟨directory, hdirectory, h⟩ := bind_eq_ok.mp h
  rw [absolutePath] at hdirectory
  split at hdirectory
  · cases hdirectory
    split at h
    · exact (Except.ok.inj h).symm
    · cases h
  · cases hdirectory

/-- What a run builds, and from what. -/
structure PlanFor (projectRoot : Text) (cfg : Config) (plan : Plan) : Prop where
  inputs : ∃ contents rest, plan.inputs = .file (fullPath projectRoot cfg.source) contents :: rest
  target : plan.target = cfg.target
  output : ∃ mode suffix, targetMode cfg.target = .ok (mode, suffix) ∧
    plan.output = builtPath projectRoot (cfg.output ++ appendedSuffix cfg.target cfg.output suffix)

/-- The artifact of an executable has the name of the output. -/
theorem PlanFor.exe {projectRoot : Text} {cfg : Config} (h : PlanFor projectRoot cfg plan)
    (htarget : cfg.target = "exe".toList) :
    plan.output = builtPath projectRoot cfg.output ∧ plan.hasAssembly = true := by
  obtain ⟨mode, suffix, hmode, houtput⟩ := h.output
  have hexe : targetMode "exe".toList = .ok ("--compile".toList, []) := by decide
  rw [htarget, hexe] at hmode
  cases hmode
  have hsuffix : appendedSuffix cfg.target cfg.output [] = [] := by
    rw [appendedSuffix]
    split
    · rfl
    · split
      · rfl
      · split <;> rfl
  rw [hsuffix, List.append_nil] at houtput
  refine ⟨houtput, ?_⟩
  rw [Plan.hasAssembly, h.target, htarget]
  rfl

theorem decideCompile_cases {invocation : Invocation} {decision : Decision}
    (h : decideCompile invocation disk plan = .ok decision) :
    (decision = .upToDate plan ∧ disk.artifactIsUsable plan.output plan.target = true ∧
      manifestMatches disk plan.output plan.fingerprint = true) ∨ decision = .compile plan := by
  rw [decideCompile] at h
  split at h
  · rename_i hcurrent
    simp only [Bool.and_eq_true] at hcurrent
    exact .inl ⟨(Except.ok.inj h).symm, hcurrent.1.2, hcurrent.2⟩
  · split at h
    · exact .inr (Except.ok.inj h).symm
    · cases h

theorem planCompile_planFor {invocation : Invocation} {cfg : Config} {dependencies : List Text}
    {toolchain compiler : Text}
    (h : planCompile invocation cfg dependencies (fullPath invocation.projectRoot cfg.source) toolchain compiler disk =
      .ok plan) : PlanFor invocation.projectRoot cfg plan := by
  obtain ⟨⟨mode, suffix⟩, hmode, h⟩ := bind_eq_ok.mp h
  obtain ⟨output, houtput, h⟩ := bind_eq_ok.mp h
  obtain ⟨⟨imported, importsCurrent⟩, -, h⟩ := bind_eq_ok.mp h
  obtain ⟨buildInputsCurrent, -, h⟩ := bind_eq_ok.mp h
  obtain ⟨inputs, hinputs, h⟩ := bind_eq_ok.mp h
  cases h
  exact ⟨fingerprintInputs_source hinputs, rfl, mode, suffix, hmode, buildPath_ok houtput⟩

theorem decideRun_cases {invocation : Invocation} {cfg : Config} {check : Bool} {dependencies : List Text}
    {decision : Decision} (h : decideRun invocation cfg check dependencies disk = .ok decision) :
    (check = true ∧ ∃ compiler source, decision = .check compiler source) ∨
    (check = false ∧ ∃ plan, PlanFor invocation.projectRoot cfg plan ∧
      decideCompile invocation disk plan = .ok decision) := by
  obtain ⟨source, hsource, h⟩ := bind_eq_ok.mp h
  obtain ⟨toolchain, -, h⟩ := bind_eq_ok.mp h
  split at h
  · cases h
  · obtain ⟨compiler, -, h⟩ := bind_eq_ok.mp h
    cases check with
    | true => exact .inl ⟨rfl, compiler, source, (Except.ok.inj h).symm⟩
    | false =>
        obtain ⟨plan, hplan, hdecide⟩ := bind_eq_ok.mp h
        rw [absolutePath] at hsource
        split at hsource
        · cases hsource
          exact .inr ⟨rfl, plan, planCompile_planFor hplan, hdecide⟩
        · cases hsource

/-- What a decision is about. -/
theorem runCompiler_cases {invocation : Invocation} {cfg : Config} {check : Bool} {decision : Decision}
    (h : runCompiler invocation cfg check disk = (disk', .ok decision)) :
    (check = true ∧ ∃ compiler source, decision = .check compiler source) ∨
    (check = false ∧ ∃ plan, PlanFor invocation.projectRoot cfg plan ∧
      decideCompile invocation disk' plan = .ok decision) := by
  unfold runCompiler at h
  split at h
  · cases h
  · split at h
    · cases h
    · split at h
      · cases h
      · obtain ⟨rfl, hdecide⟩ := Prod.mk.inj h
        exact decideRun_cases hdecide

/-- What an artifact is when it is reported as up to date. -/
theorem runCompiler_upToDate {invocation : Invocation} {cfg : Config} {check : Bool}
    (h : runCompiler invocation cfg check disk = (disk', .ok (.upToDate plan))) :
    PlanFor invocation.projectRoot cfg plan ∧ disk'.artifactIsUsable plan.output plan.target = true ∧
      manifestMatches disk' plan.output plan.fingerprint = true := by
  rcases runCompiler_cases h with ⟨-, compiler, source, hcheck⟩ | ⟨-, plan', hplan, hdecide⟩
  · cases hcheck
  · rcases decideCompile_cases hdecide with ⟨hdecision, husable, hmatches⟩ | hcompile
    · cases hdecision
      exact ⟨hplan, husable, hmatches⟩
    · cases hcompile

theorem runCompiler_compile {invocation : Invocation} {cfg : Config} {check : Bool}
    (h : runCompiler invocation cfg check disk = (disk', .ok (.compile plan))) :
    PlanFor invocation.projectRoot cfg plan := by
  rcases runCompiler_cases h with ⟨-, compiler, source, hcheck⟩ | ⟨-, plan', hplan, hdecide⟩
  · cases hcheck
  · rcases decideCompile_cases hdecide with ⟨hdecision, -⟩ | hcompile
    · cases hdecision
    · cases hcompile
      exact hplan

end Vnt.VBuild
