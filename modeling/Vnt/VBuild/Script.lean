import Vnt.VBuild.Imports
import Vnt.Lib.Prog
import Vnt.Lib.Search

/-!
# `VBuild.Script` — `build.vbuild`

`load_tasks` reads the script line by line: blocks with repositories and module dependencies, the target, and the tasks,
each with an action and the names of the tasks it depends on. At the end it checks that every name is defined and walks
the graph for cycles. The tasks are the list of `tasks[0..task_count)`, and a task is addressed by its index.
-/

namespace Vnt.VBuild

open Modules Lib

def taskCap : Nat := 64

def taskNameCap : Nat := 128

def depCap : Nat := 8

inductive Action where
  | build
  | run
  | check
  | clean
  | test
  | none
  deriving DecidableEq, Repr

structure Task where
  name : Text
  action : Action
  deps : List Text
  deriving DecidableEq, Repr

/-- The blocks of a script. -/
inductive Block where
  | repositories
  | dependencies
  deriving DecidableEq, Repr

/-- What a script says; the target is `exe` when it says none. -/
structure Script where
  tasks : List Task
  repositories : List Text
  moduleDependencies : List Text
  target : Option Text
  deriving DecidableEq, Repr

/-- The errors of `load_tasks`, those of a line with its number. -/
inductive ScriptError where
  | missingFile
  | lineTooLong (line : Nat)
  | unexpectedClose (line : Nat)
  | nestedBlock (line : Nat)
  | expectedLocal (line : Nat)
  | expectedImplementation (line : Nat)
  | secondTarget (line : Nat)
  | unknownTarget (line : Nat)
  | expectedTask (line : Nat)
  | missingAction (line : Nat)
  | nameTooLong (line : Nat)
  | duplicateTask (line : Nat) (name : Text)
  | taskLimit
  | expectedEquals (line : Nat)
  | dependsNothing (line : Nat)
  | unknownAction (line : Nat) (action : Text)
  | badDependencies (line : Nat)
  | duplicateDependency (line : Nat) (name : Text)
  | unterminatedBlock
  | noTasks
  | undefinedTask (name dependency : Text)
  | dependencyCycle (name : Text)
  deriving DecidableEq, Repr

/-- What is printed behind `vbuild: build.vbuild:LINE: `. -/
private def atLine (line : Nat) (text : String) : String :=
  "vbuild: build.vbuild:" ++ toString line ++ ": " ++ text

def ScriptError.message : ScriptError → String
  | .missingFile => "vbuild: missing build.vbuild."
  | .lineTooLong line => atLine line "line too long."
  | .unexpectedClose line => atLine line "unexpected '\x7d'."
  | .nestedBlock line => atLine line "nested blocks are unsupported."
  | .expectedLocal line => atLine line "expected local(\"relative-directory\") in repositories block."
  | .expectedImplementation line =>
      atLine line "expected implementation(\"relative-module.vnt\") in dependencies block."
  | .secondTarget line => atLine line "target may only be declared once."
  | .unknownTarget line => atLine line "target must be exe, elf, asm, or freestanding-asm."
  | .expectedTask line => atLine line "expected 'task'."
  | .missingAction line => atLine line "missing action."
  | .nameTooLong line => atLine line "task name too long."
  | .duplicateTask line name => atLine line ("duplicate task '" ++ String.ofList name ++ "'.")
  | .taskLimit => "vbuild: task limit (" ++ toString taskCap ++ ") exceeded."
  | .expectedEquals line => atLine line "expected '=' after task name."
  | .dependsNothing line => atLine line "'depends' requires at least one task name."
  | .unknownAction line action => atLine line ("unknown action '" ++ String.ofList action ++ "'.")
  | .badDependencies line => atLine line "invalid/too many dependencies."
  | .duplicateDependency line name => atLine line ("duplicate dependency '" ++ String.ofList name ++ "'.")
  | .unterminatedBlock => "vbuild: build.vbuild: unterminated block."
  | .noTasks => "vbuild: build.vbuild defines no tasks."
  | .undefinedTask name dependency =>
      "vbuild: task '" ++ String.ofList name ++ "' depends on undefined task '" ++ String.ofList dependency ++ "'."
  | .dependencyCycle name => "vbuild: dependency cycle detected at task '" ++ String.ofList name ++ "'."

/-! ## The task graph -/

def findTask (tasks : List Task) (name : Text) : Option Nat := tasks.findIdx? fun task => task.name = name

/-- The tasks a task depends on; `none` for a name that no task has. -/
def dependencies (tasks : List Task) (index : Nat) : List (Option Nat) :=
  match tasks[index]? with
  | some task => task.deps.map (findTask tasks)
  | none => []

/-- `validate_task_graph`: the depth-first walk that does nothing with a task. The walk marks every task it opens, so
    its depth is at most the number of tasks. -/
def validateTaskGraph (tasks : List Task) (index : Nat) (states : Walk Nat) : Option (Lib.Stop Nat Int) × Walk Nat :=
  Lib.walk (dependencies tasks) (fun _ => none) (tasks.length + 1) index states

/-- The loop over the tasks that rejects cycles. -/
def validateTasks (tasks : List Task) : Option (Lib.Stop Nat Int) × Walk Nat :=
  walkAll (validateTaskGraph tasks) ((List.range tasks.length).map some) .start

/-- The first name that no task has. -/
def firstUndefined (tasks : List Task) : Option (Text × Text) :=
  tasks.findSome? fun task => (task.deps.find? fun dep => findTask tasks dep = none).map fun dep => (task.name, dep)

/-! ## Lines -/

def parseAction (s : Text) : Option Action :=
  if s = "build".toList then some .build
  else if s = "run".toList then some .run
  else if s = "check".toList then some .check
  else if s = "clean".toList then some .clean
  else if s = "test".toList then some .test
  else if s = "none".toList then some .none
  else none

/-- The loop over the tokens of a dependency list, with the dependencies so far. -/
def parseDeps (line : Nat) : List Text → List Text → Except ScriptError (List Text)
  | [], deps => .ok deps
  | token :: tokens, deps =>
      let token := trim token
      if token = [] ∨ deps.length ≥ depCap ∨ token.length ≥ taskNameCap then .error (.badDependencies line)
      else if token ∈ deps then .error (.duplicateDependency line token)
      else parseDeps line tokens (deps ++ [token])

/-- The action and the dependencies of a task, behind the `=`. -/
def parseActionAndDeps (line : Nat) (text : Text) : Except ScriptError (Action × List Text) := do
  let text := skipSpaces text
  let (actionName, depends) ←
    match splitAtFirst " depends".toList text with
    | none => .ok (text, [])
    | some (before, after) =>
        if isSpace (after.headD ' ') = true then
          if trim after = [] then .error (.dependsNothing line) else .ok (trim before, trim after)
        else .ok (text, [])
  match parseAction actionName with
  | none => .error (.unknownAction line actionName)
  | some action =>
      if depends = [] then .ok (action, [])
      else do
        let deps ← parseDeps line (splitCommas depends) []
        .ok (action, deps)

/-- A line `task NAME = ACTION [depends NAME, ...]`, from the name on. -/
def parseTask (line : Nat) (tasks : List Task) (text : Text) : Except ScriptError Task :=
  let name := text.takeWhile fun c => ! isSpace c && c ≠ '='
  let rest := text.dropWhile fun c => ! isSpace c && c ≠ '='
  if rest = [] then .error (.missingAction line)
  else if name.length ≥ taskNameCap then .error (.nameTooLong line)
  else if (findTask tasks name).isSome then .error (.duplicateTask line name)
  else if tasks.length ≥ taskCap then .error .taskLimit
  else
    match skipSpaces rest with
    | '=' :: rest => do
        let (action, deps) ← parseActionAndDeps line rest
        .ok ⟨name, action, deps⟩
    | _ => .error (.expectedEquals line)

/-- What `load_tasks` keeps between two lines. -/
structure Loading where
  lineNumber : Nat
  block : Option Block
  script : Script
  deriving DecidableEq, Repr

def targetNames : List Text := ["exe".toList, "elf".toList, "asm".toList, "freestanding-asm".toList]

/-- A line of a block. -/
def loadEntry (line : Nat) (block : Block) (script : Script) (text : Text) : Except ScriptError Script :=
  match block with
  | .repositories =>
      match parseStringCall text "local" pathCap with
      | some value =>
          if safeRelativePath value = true ∧ script.repositories.length < 16 then
            .ok { script with repositories := script.repositories ++ [value] }
          else .error (.expectedLocal line)
      | none => .error (.expectedLocal line)
  | .dependencies =>
      match parseStringCall text "implementation" pathCap with
      | some value =>
          if safeRelativePath value = true ∧ script.moduleDependencies.length < 64 then
            .ok { script with moduleDependencies := script.moduleDependencies ++ [value] }
          else .error (.expectedImplementation line)
      | none => .error (.expectedImplementation line)

/-- A line outside the blocks. -/
def loadDeclaration (line : Nat) (script : Script) (text : Text) : Except ScriptError Script :=
  match stripWord "target " text with
  | some target =>
      if script.target.isSome then .error (.secondTarget line)
      else if targetNames.contains (trim target) then .ok { script with target := some (trim target) }
      else .error (.unknownTarget line)
  | none =>
      match stripWord "task " text with
      | none => .error (.expectedTask line)
      | some text => do
          let task ← parseTask line script.tasks text
          .ok { script with tasks := script.tasks ++ [task] }

/-- One turn of the loop. -/
def loadTaskLine (state : Loading) (chunk : Chunk) : Except ScriptError Loading :=
  let line := state.lineNumber + 1
  if chunk.tooLong then .error (.lineTooLong line)
  else
    let text := trim chunk.line
    let state := { state with lineNumber := line }
    if text = [] ∨ text.head? = some '#' then .ok state
    else if text = ['\x7d'] then
      if state.block.isNone then .error (.unexpectedClose line) else .ok { state with block := none }
    else if text = "repositories \x7b".toList then
      if state.block.isSome then .error (.nestedBlock line) else .ok { state with block := some .repositories }
    else if text = "dependencies \x7b".toList then
      if state.block.isSome then .error (.nestedBlock line) else .ok { state with block := some .dependencies }
    else
      match state.block with
      | some block => do
          let script ← loadEntry line block state.script text
          .ok { state with script := script }
      | none => do
          let script ← loadDeclaration line state.script text
          .ok { state with script := script }

def loadTaskLines : Loading → List Chunk → Except ScriptError Loading
  | state, [] => .ok state
  | state, chunk :: rest => do
      let state ← loadTaskLine state chunk
      loadTaskLines state rest

/-- The checks of the whole graph. -/
def checkGraph (script : Script) : Except ScriptError Script :=
  if script.tasks = [] then .error .noTasks
  else
    match firstUndefined script.tasks with
    | some (name, dependency) => .error (.undefinedTask name dependency)
    | none =>
        match (validateTasks script.tasks).1 with
        | none => .ok script
        | some (.cycle index) => .error (.dependencyCycle ((script.tasks[index]?.map Task.name).getD []))
        -- Every name is defined, so the walk stops for nothing else.
        | some _ => .error (.dependencyCycle [])

def loadTasks (contents : Option Text) : Except ScriptError Script :=
  match contents with
  | none => .error .missingFile
  | some contents => do
      let state ← loadTaskLines ⟨0, none, ⟨[], [], [], none⟩⟩ (chunks contents)
      if state.block.isSome then .error .unterminatedBlock else checkGraph state.script

/-! ## Running tasks -/

/-- `execute_task`: the walk that performs a task's action after its dependencies; an action that returns 0 has
    succeeded. The answer is what the function returns, with the walk and why it stopped. -/
def executeTask (tasks : List Task) (executeAction : Nat → Int) (index : Nat) (states : Walk Nat) :
    Option (Lib.Stop Nat Int) × Walk Nat :=
  Lib.walk (dependencies tasks) (fun i => if executeAction i = 0 then none else some (executeAction i)) (tasks.length + 1)
    index states

/-- The return value of `execute_task`: 1 for a cycle. -/
def exitCode : Option (Lib.Stop Nat Int) → Int
  | none => 0
  | some (.failed _ rc) => rc
  | some _ => 1

/-- An action that leaves the project alone. -/
def Action.readOnly : Action → Bool
  | .check | .none => true
  | .build | .run | .clean | .test => false

/-- `task_graph_requires_lock`: the search for a task whose action is not read-only. -/
def taskGraphRequiresLock (tasks : List Task) (index : Nat) : Bool :=
  (search (dependencies tasks) (fun i => (tasks[i]?.any fun task => ! task.action.readOnly)) (tasks.length + 1) index []).1

end Vnt.VBuild
