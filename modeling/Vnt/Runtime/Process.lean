import Vnt.Lib.Prog
import Vnt.Net.Request

/-!
# `Vnt.Runtime.Process`: what a child process wrote (`native_runtime.c`)

`process_poll`, `process_wait`, `process_stdout`, `process_stderr` and `process_exit_code` all go through
`process_refresh`, which drains the two pipes of the child before and after it looks at the child's status. What the
pipes hold at each `read` is the input of the model. `drained` is no field of the program: it keeps what the reads of a
stream returned.
-/

namespace Vnt.Runtime

open Lib (bind_eq_ok)
open Net (Bytes sizeMax)

inductive ProcessError where
  | outputTooLarge
  deriving DecidableEq, Repr

/-- A block of the heap; `none` is a cell that was not written. -/
abbrev Block := List (Option UInt8)

/-- `realloc`: the cells of the old block, and new ones. -/
def realloc (block : Option Block) (size : Nat) : Block :=
  let old := (block.getD []).take size
  old ++ List.replicate (size - old.length) none

/-- `memcpy` to an offset. -/
def Block.copy (block : Block) (offset : Nat) (data : Bytes) : Block :=
  block.take offset ++ data.map some ++ block.drop (offset + data.length)

/-- One stream of a process: its descriptor, `*_data` and `*_len`, and what was read from it. -/
structure Capture where
  isOpen : Bool
  data : Option Block
  length : Nat
  drained : Bytes
  deriving DecidableEq, Repr

/-- `process_append`. The grown block stays in the local `next`: the function never stores it in `*dst`. -/
def processAppend (c : Capture) (data : Bytes) : Except ProcessError Capture :=
  if data = [] then .ok c
  else if data.length > sizeMax - c.length - 1 then .error .outputTooLarge
  else
    let length := c.length + data.length
    let _next := ((realloc c.data (length + 1)).copy c.length data).set length (some 0)
    .ok { c with length }

/-- The outcome of one `read`; a descriptor with nothing to read (`EAGAIN`) is the end of a list of outcomes. -/
inductive ReadOutcome where
  | got (chunk : Bytes)
  | interrupted
  | failed
  deriving DecidableEq, Repr

/-- The loop of `process_drain_fd`. -/
def drainLoop (c : Capture) : List ReadOutcome → Except ProcessError Capture
  | [] => .ok c
  | .got [] :: _ => .ok { c with isOpen := false }
  | .got (byte :: chunk) :: more => do
      let next ← processAppend c (byte :: chunk)
      drainLoop { next with drained := c.drained ++ byte :: chunk } more
  | .interrupted :: more => drainLoop c more
  | .failed :: _ => .ok { c with isOpen := false }

/-- `process_drain_fd`. -/
def processDrainFd (c : Capture) (reads : List ReadOutcome) : Except ProcessError Capture :=
  if c.isOpen then drainLoop c reads else .ok c

/-- `VntProcess`. -/
structure Process where
  stdout : Capture
  stderr : Capture
  done : Bool
  exitCode : Int
  deriving DecidableEq, Repr

/-- `process_start`: two open pipes, the rest zeroed by `calloc`. -/
def Process.started : Process := ⟨⟨true, none, 0, []⟩, ⟨true, none, 0, []⟩, false, 0⟩

/-- What `waitpid` reports: a status that stands for an exit, for a signal, or for neither. -/
inductive WaitStatus where
  | exited (code : Nat)
  | signaled (signal : Nat)
  | other
  deriving DecidableEq, Repr

def WaitStatus.exitCode : WaitStatus → Int
  | .exited code => code
  | .signaled signal => 128 + signal
  | .other => 1

/-- What one refresh meets: the reads of its four drains, and the child's status once there is one. -/
structure Refresh where
  stdoutFirst : List ReadOutcome
  stderrFirst : List ReadOutcome
  status : Option WaitStatus
  stdoutAgain : List ReadOutcome
  stderrAgain : List ReadOutcome
  deriving DecidableEq, Repr

/-- The part of `process_refresh` between the drains. -/
def Process.reap (p : Process) (status : Option WaitStatus) : Process :=
  match p.done, status with
  | false, some status => { p with exitCode := status.exitCode, done := true }
  | _, _ => p

/-- `process_refresh`. -/
def processRefresh (p : Process) (r : Refresh) : Except ProcessError Process := do
  let stdout ← processDrainFd p.stdout r.stdoutFirst
  let stderr ← processDrainFd p.stderr r.stderrFirst
  let reaped := Process.reap { p with stdout, stderr } r.status
  let stdout ← processDrainFd reaped.stdout r.stdoutAgain
  let stderr ← processDrainFd reaped.stderr r.stderrAgain
  .ok { reaped with stdout, stderr }

/-- The string at a pointer: the bytes before the first zero. -/
def Block.text (block : Block) : Bytes := ((block.map (·.getD 0)).takeWhile (· ≠ 0))

/-- `p->stdout_data ? p->stdout_data : ""`. -/
def Capture.text (c : Capture) : Bytes := (c.data.map Block.text).getD []

/-- The loop of `process_wait`: a refresh a turn, until the child is done or the time is up. -/
def waitLoop (p : Process) : List Refresh → Except ProcessError Process
  | [] => .ok p
  | r :: more => do
      let next ← processRefresh p r
      if next.done then .ok next else waitLoop next more

inductive ProcessCall where
  | poll (r : Refresh)
  /-- `process_wait`, which refreshes at least once. -/
  | wait (r : Refresh) (more : List Refresh)
  | stdout (r : Refresh)
  | stderr (r : Refresh)
  | exitCode (r : Refresh)
  deriving DecidableEq, Repr

inductive ProcessValue where
  | bool (b : Bool)
  | int (i : Int)
  | string (text : Bytes)
  deriving DecidableEq, Repr

/-- `vnt_process_poll` .. `vnt_process_exit_code`. -/
def ProcessCall.run (p : Process) : ProcessCall → Except ProcessError (ProcessValue × Process)
  | .poll r => do
      let p ← processRefresh p r
      .ok (.bool p.done, p)
  | .wait r more => do
      let p ← waitLoop p (r :: more)
      .ok (.bool p.done, p)
  | .stdout r => do
      let p ← processRefresh p r
      .ok (.string p.stdout.text, p)
  | .stderr r => do
      let p ← processRefresh p r
      .ok (.string p.stderr.text, p)
  | .exitCode r => do
      let p ← processRefresh p r
      .ok (.int (if p.done then p.exitCode else -1), p)

/-- A sequence of calls on one process. -/
def runCalls (p : Process) (calls : List ProcessCall) : Except ProcessError Process :=
  calls.foldlM (fun p call => Prod.snd <$> call.run p) p

/-! ## What a stream holds -/

/-- The function that appends keeps the count and not the bytes. -/
structure Capture.Counted (c : Capture) : Prop where
  data : c.data = none
  length : c.length = c.drained.length

theorem Capture.Counted.close {c : Capture} (h : c.Counted) : Capture.Counted { c with isOpen := false } := ⟨h.data, h.length⟩

theorem Capture.Counted.append {c c' : Capture} {data : Bytes} (h : c.Counted) (hrun : processAppend c data = .ok c') :
    Capture.Counted { c' with drained := c.drained ++ data } := by
  unfold processAppend at hrun
  split at hrun
  · rename_i hempty
    cases hrun
    rw [hempty, List.append_nil]
    exact h
  split at hrun
  · cases hrun
  · cases hrun
    refine ⟨h.data, ?_⟩
    show c.length + data.length = (c.drained ++ data).length
    rw [h.length, List.length_append]

theorem Capture.Counted.loop {reads : List ReadOutcome} {c c' : Capture} (h : c.Counted)
    (hrun : drainLoop c reads = .ok c') : c'.Counted := by
  induction reads generalizing c with
  | nil =>
      cases hrun
      exact h
  | cons read more ih =>
      cases read with
      | got chunk =>
          cases chunk with
          | nil =>
              cases hrun
              exact h.close
          | cons byte chunk =>
              rw [drainLoop] at hrun
              obtain ⟨next, hnext, hmore⟩ := bind_eq_ok.mp hrun
              exact ih (h.append hnext) hmore
      | interrupted => exact ih h hrun
      | failed =>
          cases hrun
          exact h.close

theorem Capture.Counted.drain {reads : List ReadOutcome} {c c' : Capture} (h : c.Counted)
    (hrun : processDrainFd c reads = .ok c') : c'.Counted := by
  unfold processDrainFd at hrun
  split at hrun
  · exact h.loop hrun
  · cases hrun
    exact h

theorem Capture.Counted.text_eq {c : Capture} (h : c.Counted) : c.text = [] := by
  rw [Capture.text, h.data]
  rfl

/-! ## What a process holds -/

structure Process.Counted (p : Process) : Prop where
  stdout : p.stdout.Counted
  stderr : p.stderr.Counted

theorem Process.Counted.started : Process.started.Counted := ⟨⟨rfl, rfl⟩, ⟨rfl, rfl⟩⟩

theorem Process.Counted.reap {p : Process} (h : p.Counted) (status : Option WaitStatus) : (p.reap status).Counted := by
  unfold Process.reap
  split
  · exact ⟨h.stdout, h.stderr⟩
  · exact h

theorem Process.Counted.refresh {p p' : Process} {r : Refresh} (h : p.Counted) (hrun : processRefresh p r = .ok p') :
    p'.Counted := by
  unfold processRefresh at hrun
  obtain ⟨stdout, hstdout, hrun⟩ := bind_eq_ok.mp hrun
  obtain ⟨stderr, hstderr, hrun⟩ := bind_eq_ok.mp hrun
  have hreaped := Process.Counted.reap (p := { p with stdout, stderr }) ⟨h.stdout.drain hstdout, h.stderr.drain hstderr⟩ r.status
  obtain ⟨stdout', hstdout', hrun⟩ := bind_eq_ok.mp hrun
  obtain ⟨stderr', hstderr', hrun⟩ := bind_eq_ok.mp hrun
  cases hrun
  exact ⟨hreaped.stdout.drain hstdout', hreaped.stderr.drain hstderr'⟩

theorem Process.Counted.wait {turns : List Refresh} {p p' : Process} (h : p.Counted) (hrun : waitLoop p turns = .ok p') :
    p'.Counted := by
  induction turns generalizing p with
  | nil =>
      cases hrun
      exact h
  | cons r more ih =>
      rw [waitLoop] at hrun
      obtain ⟨next, hnext, hrun⟩ := bind_eq_ok.mp hrun
      split at hrun
      · cases hrun
        exact h.refresh hnext
      · exact ih (h.refresh hnext) hrun

/-- A call refreshes the process, and answers from the state it leaves. -/
theorem ProcessCall.run_counted {call : ProcessCall} {p p' : Process} {value : ProcessValue} (h : p.Counted)
    (hrun : call.run p = .ok (value, p')) : p'.Counted := by
  cases call with
  | wait r more =>
      obtain ⟨next, hnext, hrun⟩ := bind_eq_ok.mp hrun
      cases hrun
      exact h.wait hnext
  | _ r =>
      obtain ⟨next, hnext, hrun⟩ := bind_eq_ok.mp hrun
      cases hrun
      exact h.refresh hnext

/-- **In every state of a run the streams have their counts and no bytes.** -/
theorem runCalls_counted {calls : List ProcessCall} {p p' : Process} (h : p.Counted) (hrun : runCalls p calls = .ok p') :
    p'.Counted := by
  induction calls generalizing p with
  | nil =>
      cases hrun
      exact h
  | cons call more ih =>
      rw [runCalls, List.foldlM_cons] at hrun
      obtain ⟨next, hnext, hmore⟩ := bind_eq_ok.mp hrun
      cases hcall : call.run p with
      | error e =>
          rw [hcall] at hnext
          cases hnext
      | ok answer =>
          rw [hcall] at hnext
          cases hnext
          exact ih (ProcessCall.run_counted h hcall) hmore

/-! ## Captured output -/

/-- A refresh that meets no news. -/
def Refresh.quiet : Refresh := ⟨[], [], none, [], []⟩

/-- Asked without news, the process returns all that was read from it, and its counts are those of the buffers. -/
structure Process.Captured (p : Process) : Prop where
  stdout : (ProcessCall.stdout .quiet).run p = .ok (.string p.stdout.drained, p)
  stderr : (ProcessCall.stderr .quiet).run p = .ok (.string p.stderr.drained, p)
  stdoutLength : p.stdout.length = p.stdout.text.length
  stderrLength : p.stderr.length = p.stderr.text.length

theorem processDrainFd_nil (c : Capture) : processDrainFd c [] = .ok c := by
  unfold processDrainFd
  split
  · rfl
  · rfl

theorem processRefresh_quiet (p : Process) : processRefresh p .quiet = .ok p := by
  have hreap : p.reap none = p := by
    unfold Process.reap
    split
    · rename_i hstatus
      cases hstatus
    · rfl
  unfold processRefresh Refresh.quiet
  simp only [processDrainFd_nil, hreap, bind, Except.bind]

theorem stdout_quiet (p : Process) : (ProcessCall.stdout .quiet).run p = .ok (.string p.stdout.text, p) := by
  rw [ProcessCall.run, processRefresh_quiet]
  rfl

theorem stderr_quiet (p : Process) : (ProcessCall.stderr .quiet).run p = .ok (.string p.stderr.text, p) := by
  rw [ProcessCall.run, processRefresh_quiet]
  rfl

/-- **Output is captured as long as there is none.** -/
theorem process_captured_iff {calls : List ProcessCall} {p : Process} (hrun : runCalls .started calls = .ok p) :
    p.Captured ↔ p.stdout.drained = [] ∧ p.stderr.drained = [] := by
  have hcounted := runCalls_counted .started hrun
  have hout := hcounted.stdout.text_eq
  have herr := hcounted.stderr.text_eq
  constructor
  · intro h
    have hstdout := (stdout_quiet p).symm.trans h.stdout
    have hstderr := (stderr_quiet p).symm.trans h.stderr
    rw [hout] at hstdout
    rw [herr] at hstderr
    cases hstdout' : p.stdout.drained with
    | cons byte more =>
        rw [hstdout'] at hstdout
        cases hstdout
    | nil =>
        cases hstderr' : p.stderr.drained with
        | cons byte more =>
            rw [hstderr'] at hstderr
            cases hstderr
        | nil => exact ⟨rfl, rfl⟩
  · rintro ⟨hnoOut, hnoErr⟩
    refine ⟨?_, ?_, ?_, ?_⟩
    · rw [stdout_quiet, hout, hnoOut]
    · rw [stderr_quiet, herr, hnoErr]
    · rw [hcounted.stdout.length, hnoOut, hout]
    · rw [hcounted.stderr.length, hnoErr, herr]

/-- A child that writes nothing and exits. -/
theorem silent_captured : ∃ p, runCalls .started [.poll ⟨[], [], some (.exited 0), [.got []], [.got []]⟩] = .ok p ∧
    p.Captured := by
  refine ⟨⟨⟨false, none, 0, []⟩, ⟨false, none, 0, []⟩, true, 0⟩, rfl, ?_⟩
  exact (@process_captured_iff [.poll ⟨[], [], some (.exited 0), [.got []], [.got []]⟩] _ rfl).mpr ⟨rfl, rfl⟩

/-- The two bytes of a child that prints `hi`. -/
def saysHi : Refresh := ⟨[.got [104, 105]], [], some (.exited 0), [.got []], [.got []]⟩

/-- **What a child prints is not returned**: after two bytes were read `process_stdout` still returns the empty string. -/
theorem printed_lost : ∃ p, runCalls .started [.poll saysHi] = .ok p ∧ p.stdout.drained = [104, 105] ∧
    (ProcessCall.stdout .quiet).run p = .ok (.string [], p) ∧ p.stdout.length = 2 ∧ ¬p.Captured := by
  refine ⟨⟨⟨false, none, 2, [104, 105]⟩, ⟨false, none, 0, []⟩, true, 0⟩, rfl, rfl, rfl, rfl, ?_⟩
  intro h
  exact absurd h.stdoutLength (by decide)

end Vnt.Runtime
