import Vnt.Lib.Ring
import Mathlib.Data.List.FinRange

/-!
# `Vnt.Async.Table`: asynchronous requests (`native_async_net.c`)

A table of 64 tasks, a queue of slots, four workers and one client. Every function holds `async_lock` for its whole
body or for each of the pieces between two waits, so a run is an interleaving of the steps below: a call of the client,
its return from a wait, or one locked piece of a worker. `memset` and `async_task_clear` leave `Task.zero`. What the
HTTP request of a worker does between the locked pieces is arbitrary: it may call the sink with any data, register a
transport, and end with any response and status.
-/

namespace Vnt.Async

abbrev Bytes := List UInt8

/-- `VNT_NET_ASYNC_CAPACITY` slots. -/
abbrev Slot := Fin 64

/-- `VNT_NET_STREAM_CAPACITY`. -/
def streamCapacity : Nat := 64 * 1024

inductive TaskState where
  | free
  | queued
  | running
  | done
  | cancelled
  deriving DecidableEq, Repr

/-- `VntAsyncTask`; `stream_buffer`, `stream_head` and `stream_count` are the ring. -/
structure Task where
  id : Int
  state : TaskState
  method : Bytes
  url : Bytes
  headers : Bytes
  body : Bytes
  response : Option Bytes
  responseLength : Nat
  status : Int
  activeTransport : Int
  workerFinished : Bool
  releaseRequested : Bool
  mode : Int
  stream : Ring UInt8 streamCapacity

/-- A zeroed ring. -/
def emptyStream : Ring UInt8 streamCapacity where
  cells := fun _ => 0
  head := 0
  count := 0
  head_lt := by decide
  count_le := Nat.zero_le _

def Task.zero : Task where
  id := 0
  state := .free
  method := []
  url := []
  headers := []
  body := []
  response := none
  responseLength := 0
  status := 0
  activeTransport := 0
  workerFinished := false
  releaseRequested := false
  mode := 0
  stream := emptyStream

/-- Where a worker stands: before its pop, in the request of a task (`async_current_handle` is the task's id), or
    inside `async_stream_push_task` with the bytes it still has to push. -/
inductive Worker where
  | popping
  | running (slot : Slot) (handle : Int)
  | pushing (slot : Slot) (handle : Int) (data : Bytes)

/-- Where the client stands: between two calls, asleep in `_wait`, or asleep in `_stream_read`. -/
inductive Client where
  | ready
  | waiting (slot : Slot) (handle : Int)
  | reading (slot : Slot) (handle : Int) (maximum : Nat)

structure AsyncState where
  tasks : Slot → Task
  queue : Ring Slot 64
  queueTail : Nat
  nextHandle : Int
  workerCount : Nat
  workers : Fin 4 → Worker
  client : Client

/-- The statically initialised variables. -/
def AsyncState.initial : AsyncState where
  tasks := fun _ => Task.zero
  queue := ⟨fun _ => 0, 0, 0, by decide, by decide⟩
  queueTail := 0
  nextHandle := 1
  workerCount := 0
  workers := fun _ => .popping
  client := .ready

def AsyncState.setTask (s : AsyncState) (slot : Slot) (t : Task) : AsyncState :=
  { s with tasks := Function.update s.tasks slot t }

def AsyncState.setWorker (s : AsyncState) (w : Fin 4) (worker : Worker) : AsyncState :=
  { s with workers := Function.update s.workers w worker }

def AsyncState.asyncFindLocked (s : AsyncState) (id : Int) : Option Slot :=
  if id ≤ 0 then none
  else (List.finRange 64).find? fun i => (s.tasks i).state ≠ .free ∧ (s.tasks i).id = id

/-! ## The worker -/

/-- `async_worker_main` up to the request; a worker with an empty queue sleeps. -/
def asyncWorkerPop (s : AsyncState) (w : Fin 4) : Option AsyncState :=
  if s.queue.count = 0 then none
  else
    let slot := s.queue.cells s.queue.head
    let s := { s with queue := s.queue.drop 1 }
    let task := s.tasks slot
    if task.state = .cancelled then some (s.setTask slot Task.zero)
    else if task.state ≠ .queued then some s
    else some ((s.setTask slot { task with state := .running }).setWorker w (.running slot task.id))

/-- `async_worker_main` behind the request, which has returned `response`, `status` and `length`. -/
def asyncWorkerFinish (s : AsyncState) (w : Fin 4) (slot : Slot) (response : Option Bytes) (length : Nat)
    (status : Int) : AsyncState :=
  let task := { s.tasks slot with workerFinished := true }
  let s := s.setWorker w .popping
  if task.state = .running then
    s.setTask slot { task with
      response := response
      responseLength := if response.isSome then length else 0
      status := status
      state := .done }
  else if task.releaseRequested then s.setTask slot Task.zero
  else s.setTask slot task

/-- The free space of a ring bounds what one turn copies. -/
theorem put_fits (r : Ring UInt8 streamCapacity) (data : Bytes) :
    r.count + (data.take (min data.length (streamCapacity - r.count))).length ≤ streamCapacity := by
  have hcount := r.count_le
  rw [List.length_take]
  omega

/-- One turn of the loop of `async_stream_push_task`, for a worker that has `data` left. A worker whose task runs and
    whose ring is full sleeps. The bytes that went into the ring come with the new state. -/
def asyncStreamPush (s : AsyncState) (w : Fin 4) (slot : Slot) (handle : Int) (data : Bytes) :
    Option (AsyncState × Bytes) :=
  if data = [] then some (s.setWorker w (.running slot handle), [])
  else
    let t := s.tasks slot
    if t.state = .running ∧ t.stream.count = streamCapacity then none
    else if t.state ≠ .running then some (s.setWorker w (.running slot handle), [])
    else
      let amount := min data.length (streamCapacity - t.stream.count)
      let t' := { t with stream := t.stream.put (data.take amount) (put_fits t.stream data) }
      some ((s.setTask slot t').setWorker w (.pushing slot handle (data.drop amount)), data.take amount)

/-- `vnt_native_http_async_set_transport`, called with the worker's handle. The socket to shut down, if any, comes with
    the new state. -/
def vntNativeHttpAsyncSetTransport (s : AsyncState) (id transport : Int) : AsyncState × Option Int :=
  if id = 0 ∨ transport = 0 then (s, none)
  else
    match s.asyncFindLocked id with
    | none => (s, none)
    | some slot =>
        if (s.tasks slot).state = .running then
          (s.setTask slot { s.tasks slot with activeTransport := transport }, none)
        else if (s.tasks slot).state = .cancelled then (s, some (transport - 1))
        else (s, none)

/-- `vnt_native_http_async_should_close_transport`; it returns 1. -/
def vntNativeHttpAsyncShouldCloseTransport (s : AsyncState) (id transport : Int) : AsyncState :=
  if id = 0 ∨ transport = 0 then s
  else
    match s.asyncFindLocked id with
    | none => s
    | some slot =>
        if (s.tasks slot).activeTransport = transport then
          s.setTask slot { s.tasks slot with activeTransport := 0 }
        else s

/-! ## Start -/

/-- `async_ensure_workers_locked`, where `threads` more threads can be created. -/
def asyncEnsureWorkersLocked (s : AsyncState) (threads : Nat) : Bool × AsyncState :=
  let count := max s.workerCount (min 4 (s.workerCount + threads))
  (4 ≤ count, { s with workerCount := count })

/-- `next_handle++`, and 1 when that is not positive. -/
def advanceHandle (next : Int) : Int :=
  let next := Int.bmod (next + 1) (2 ^ 32)
  if next ≤ 0 then 1 else next

/-- The loop that looks for a handle no task has; `none` when it turns more than `fuel` times. -/
def pickHandle (tasks : Slot → Task) : Nat → Int → Option (Int × Int)
  | 0, _ => none
  | fuel + 1, next =>
      let candidate := next
      let next := advanceHandle next
      if candidate ≤ 0 then pickHandle tasks fuel next
      else if (List.finRange 64).any fun i => (tasks i).state ≠ .free ∧ (tasks i).id = candidate then
        pickHandle tasks fuel next
      else some (candidate, next)

/-- The task `t` is put into `slot`, and the slot into the queue. -/
def enqueue (s : AsyncState) (slot : Slot) (t : Task) (next : Int) (h : s.queue.count < 64) : AsyncState :=
  { s with
    tasks := Function.update s.tasks slot t
    nextHandle := next
    queue := s.queue.fill (Function.update s.queue.cells s.queueTail slot) 1 h
    queueTail := (s.queueTail + 1) % 64 }

/-- `async_start_impl`; `allocated` says whether the copies of the arguments could be made. -/
def asyncStartImpl (s : AsyncState) (method url headers body : Bytes) (mode : Int) (allocated : Bool) (threads : Nat) :
    Option (Int × AsyncState) :=
  if allocated = false then some (0, s)
  else
    let (ready, s) := asyncEnsureWorkersLocked s threads
    if h : ready = false ∨ s.queue.count = 64 then some (0, s)
    else
      match (List.finRange 64).find? fun i => (s.tasks i).state = .free with
      | none => some (0, s)
      | some slot =>
          let s' := s.setTask slot Task.zero
          match pickHandle s'.tasks 65 s'.nextHandle with
          | none => none
          | some (candidate, next) =>
              let t := { Task.zero with
                id := candidate, method := method, url := url, headers := headers, body := body, mode := mode,
                state := .queued }
              some (candidate, enqueue s' slot t next (Nat.lt_of_le_of_ne s.queue.count_le fun he => h (.inr he)))

/-! ## The other calls -/

/-- What `_poll` and `_wait` report of a task. -/
def TaskState.report : TaskState → Int
  | .done => 1
  | .cancelled => -1
  | _ => 0

def vntNativeHttpAsyncPoll (s : AsyncState) (id : Int) : Int :=
  match s.asyncFindLocked id with
  | none => -1
  | some slot => (s.tasks slot).state.report

/-- A state in which `_wait` and `_stream_read` may have to sleep. -/
def TaskState.pending (state : TaskState) : Bool := state = .queued ∨ state = .running

/-- `vnt_native_http_async_wait` up to its first sleep; `none` when it sleeps. -/
def vntNativeHttpAsyncWait (s : AsyncState) (id : Int) (timeoutMs : Nat) : Option Int × AsyncState :=
  match s.asyncFindLocked id with
  | none => (some (-1), s)
  | some slot =>
      if timeoutMs ≠ 0 ∧ (s.tasks slot).state.pending then (none, { s with client := .waiting slot id })
      else (some (s.tasks slot).state.report, s)

/-- `vnt_native_http_async_cancel`, with the socket it shuts down. -/
def vntNativeHttpAsyncCancel (s : AsyncState) (id : Int) : Int × AsyncState × Option Int :=
  match s.asyncFindLocked id with
  | none => (0, s, none)
  | some slot =>
      let t := s.tasks slot
      if t.state = .queued then (1, s.setTask slot { t with state := .cancelled }, none)
      else if t.state = .running then
        (1, s.setTask slot { t with state := .cancelled },
          if t.activeTransport ≠ 0 then some (t.activeTransport - 1) else none)
      else (0, s, none)

/-- `async_strdup`: up to the first zero byte. -/
def asyncStrdup (text : Bytes) : Bytes := text.takeWhile (· ≠ 0)

/-- `vnt_native_http_async_result`: the copy and the reported length. -/
def vntNativeHttpAsyncResult (s : AsyncState) (id : Int) : Option Bytes × Nat :=
  match s.asyncFindLocked id with
  | none => (none, 0)
  | some slot =>
      let t := s.tasks slot
      if t.state = .done then
        match t.response with
        | some response => (some (asyncStrdup response), t.responseLength)
        | none => (some [], 0)
      else (none, 0)

def vntNativeHttpAsyncStatus (s : AsyncState) (id : Int) : Int :=
  match s.asyncFindLocked id with
  | none => 0
  | some slot => if (s.tasks slot).state = .done then (s.tasks slot).status else 0

def vntNativeHttpAsyncRelease (s : AsyncState) (id : Int) : Int × AsyncState :=
  match s.asyncFindLocked id with
  | none => (0, s)
  | some slot =>
      let t := s.tasks slot
      if t.state = .done ∧ (t.mode ≠ 1 ∨ t.stream.count = 0) then (1, s.setTask slot Task.zero)
      else if t.state = .cancelled then
        if t.workerFinished then (1, s.setTask slot Task.zero)
        else (1, s.setTask slot { t with releaseRequested := true })
      else (0, s)

/-- The read of `_stream_read` once it need not sleep. -/
def streamTake (s : AsyncState) (slot : Slot) (maximum : Nat) : Bytes × AsyncState :=
  let t := s.tasks slot
  let amount := min t.stream.count maximum
  (t.stream.peek amount, s.setTask slot { t with stream := t.stream.drop amount })

/-- What a call of `_stream_read` comes to: it returns no buffer, it sleeps, or it reads from a slot. -/
inductive ReadCall where
  | refused
  | asleep (slot : Slot) (maximum : Nat)
  | reads (slot : Slot) (maximum : Nat)

/-- `vnt_native_http_async_stream_read` up to its first sleep or its read. -/
def vntNativeHttpAsyncStreamRead (s : AsyncState) (id : Int) (maximum : Nat) : ReadCall :=
  let maximum := if maximum = 0 ∨ maximum > streamCapacity then streamCapacity else maximum
  match s.asyncFindLocked id with
  | none => .refused
  | some slot =>
      let t := s.tasks slot
      if t.mode ≠ 1 then .refused
      else if t.stream.count = 0 ∧ t.state.pending then .asleep slot maximum
      else .reads slot maximum

def vntNativeHttpAsyncStreamDone (s : AsyncState) (id : Int) : Int :=
  match s.asyncFindLocked id with
  | none => 1
  | some slot =>
      let t := s.tasks slot
      if t.mode = 1 then
        if (t.state = .done ∨ t.state = .cancelled) ∧ t.stream.count = 0 then 1 else 0
      else 1

/-! ## Interleavings -/

/-- A step of the client or of a worker. -/
inductive Act where
  | start (method url headers body : Bytes) (allocated : Bool) (threads : Nat)
  | streamStart (method url headers body : Bytes) (allocated : Bool) (threads : Nat)
  | poll (id : Int)
  | wait (id : Int) (timeoutMs : Nat)
  | cancel (id : Int)
  | result (id : Int)
  | status (id : Int)
  | streamRead (id : Int) (maximum : Nat)
  | streamDone (id : Int)
  | release (id : Int)
  /-- the client wakes up, on a broadcast or because its time is up -/
  | wake (timedOut : Bool)
  | pop (w : Fin 4)
  | sink (w : Fin 4) (data : Bytes)
  | push (w : Fin 4)
  | setTransport (w : Fin 4) (transport : Int)
  | closeTransport (w : Fin 4) (transport : Int)
  | finish (w : Fin 4) (response : Option Bytes) (length : Nat) (status : Int)

/-- What a step shows. -/
inductive Outcome where
  | started (id : Int)
  | returned (value : Int)
  | copied (copy : Option Bytes) (length : Nat)
  | read (id : Int) (bytes : Bytes)
  | offered (id : Int) (data : Bytes)
  | pushed (id : Int) (bytes : Bytes)
  | quiet

/-- A call of the client: it makes none while it sleeps. -/
def clientStep (s : AsyncState) : Act → Option (AsyncState × Outcome)
  | .start method url headers body allocated threads => do
      let (id, s') ← asyncStartImpl s method url headers body 0 allocated threads
      some (s', if id = 0 then .returned 0 else .started id)
  | .streamStart method url headers body allocated threads => do
      let (id, s') ← asyncStartImpl s method url headers body 1 allocated threads
      some (s', if id = 0 then .returned 0 else .started id)
  | .poll id => some (s, .returned (vntNativeHttpAsyncPoll s id))
  | .wait id timeoutMs =>
      let (value, s') := vntNativeHttpAsyncWait s id timeoutMs
      some (s', value.elim .quiet .returned)
  | .cancel id =>
      let (value, s', _) := vntNativeHttpAsyncCancel s id
      some (s', .returned value)
  | .result id =>
      let (copy, length) := vntNativeHttpAsyncResult s id
      some (s, .copied copy length)
  | .status id => some (s, .returned (vntNativeHttpAsyncStatus s id))
  | .streamRead id maximum =>
      match vntNativeHttpAsyncStreamRead s id maximum with
      | .refused => some (s, .copied none 0)
      | .asleep slot maximum => some ({ s with client := .reading slot id maximum }, .quiet)
      | .reads slot maximum =>
          let (bytes, s') := streamTake s slot maximum
          some (s', .read id bytes)
  | .streamDone id => some (s, .returned (vntNativeHttpAsyncStreamDone s id))
  | .release id =>
      let (value, s') := vntNativeHttpAsyncRelease s id
      some (s', .returned value)
  | _ => none

/-- The sleeping client wakes up: its loop goes on, or ends. -/
def wakeStep (s : AsyncState) (timedOut : Bool) : Option (AsyncState × Outcome) :=
  match s.client with
  | .ready => none
  | .waiting slot _ =>
      if (s.tasks slot).state.pending ∧ timedOut = false then some (s, .quiet)
      else some ({ s with client := .ready }, .returned (s.tasks slot).state.report)
  | .reading slot handle maximum =>
      if (s.tasks slot).stream.count = 0 ∧ (s.tasks slot).state.pending then some (s, .quiet)
      else
        let (bytes, s') := streamTake s slot maximum
        some ({ s' with client := .ready }, .read handle bytes)

/-- A locked piece of worker `w`. -/
def workerStep (s : AsyncState) (w : Fin 4) : Act → Option (AsyncState × Outcome)
  | .pop _ =>
      match s.workers w with
      | .popping => (asyncWorkerPop s w).map fun s' => (s', .quiet)
      | _ => none
  | .sink _ data =>
      match s.workers w with
      | .running slot handle =>
          if (s.tasks slot).mode = 1 then some (s.setWorker w (.pushing slot handle data), .offered handle data) else none
      | _ => none
  | .push _ =>
      match s.workers w with
      | .pushing slot handle data => (asyncStreamPush s w slot handle data).map fun r => (r.1, .pushed handle r.2)
      | _ => none
  | .setTransport _ transport =>
      match s.workers w with
      | .running _ handle => some ((vntNativeHttpAsyncSetTransport s handle transport).1, .quiet)
      | _ => none
  | .closeTransport _ transport =>
      match s.workers w with
      | .running _ handle => some (vntNativeHttpAsyncShouldCloseTransport s handle transport, .quiet)
      | _ => none
  | .finish _ response length status =>
      match s.workers w with
      | .running slot _ => some (asyncWorkerFinish s w slot response length status, .quiet)
      | _ => none
  | _ => none

/-- The worker whose step it is. -/
def Act.worker? : Act → Option (Fin 4)
  | .pop w | .sink w _ | .push w | .setTransport w _ | .closeTransport w _ | .finish w _ _ _ => some w
  | _ => none

/-- One step; a worker takes part once its thread has been created. -/
def step (s : AsyncState) (a : Act) : Option (AsyncState × Outcome) :=
  match a.worker?, s.client with
  | some w, _ => if w.val < s.workerCount then workerStep s w a else none
  | none, .ready => clientStep s a
  | none, _ =>
      match a with
      | .wake timedOut => wakeStep s timedOut
      | _ => none

end Vnt.Async
