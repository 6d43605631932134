import Vnt.Async.Runs

/-!
# `Vnt.Async.Stream`: streaming is a queue of bytes

The traffic of a handle since its start: the bytes its worker offered to the sink, those that went into the ring, and
those the client read. In every state of a run the ring holds what was pushed and not read, and unless the task was
cancelled what was offered and not pushed is what the worker still has in hand.
-/

namespace Vnt.Async

variable {s s' : AsyncState} {b : Board} {i slot : Slot} {w : Fin 4} {id handle : Int} {a : Act} {o : Outcome}

structure Traffic where
  offered : Bytes
  pushed : Bytes
  read : Bytes

/-- A handle's traffic begins anew when the handle is given out. -/
def record (traffic : Int → Traffic) : Outcome → Int → Traffic
  | .started id => Function.update traffic id ⟨[], [], []⟩
  | .offered id data => Function.update traffic id { traffic id with offered := (traffic id).offered ++ data }
  | .pushed id bytes => Function.update traffic id { traffic id with pushed := (traffic id).pushed ++ bytes }
  | .read id bytes => Function.update traffic id { traffic id with read := (traffic id).read ++ bytes }
  | _ => traffic

def history (trace : Trace) : Int → Traffic :=
  trace.foldl (fun traffic x => record traffic x.2) fun _ => ⟨[], [], []⟩

theorem history_snoc (trace : Trace) (x : Act × Outcome) : history (trace ++ [x]) = record (history trace) x.2 := by
  rw [history, List.foldl_append]
  rfl

/-- The traffic `f` fits the task `t` of slot `i`. -/
structure Fits (f : Traffic) (t : Task) (workers : Fin 4 → Worker) (i : Slot) : Prop where
  ring : f.pushed = f.read ++ t.stream.contents
  inHand : t.state ≠ .cancelled → ∀ w handle data, workers w = .pushing i handle data → f.offered = f.pushed ++ data
  atRest : t.state ≠ .cancelled → (∀ w handle data, workers w ≠ .pushing i handle data) → f.offered = f.pushed

/-- The traffic of every handle fits its task. -/
def Flows (s : AsyncState) (traffic : Int → Traffic) : Prop :=
  ∀ i, (s.tasks i).state ≠ .free → Fits (traffic (s.tasks i).id) (s.tasks i) s.workers i

variable {traffic traffic' : Int → Traffic}

/-! ## Steps without traffic -/

/-- A task is cleared, or keeps its id and its stream. -/
def Task.Calm (t t' : Task) : Prop :=
  t'.state ≠ .free → t.state ≠ .free ∧ t'.id = t.id ∧ t'.stream = t.stream ∧
    (t'.state ≠ .cancelled → t.state ≠ .cancelled)

theorem Flows.calm (h : Flows s traffic) (htasks : ∀ i, (s.tasks i).Calm (s'.tasks i))
    (hworkers : ∀ w i handle data, s'.workers w = .pushing i handle data ↔ s.workers w = .pushing i handle data) :
    Flows s' traffic := by
  intro i hi
  obtain ⟨hlive, hid, hstream, hcancelled⟩ := htasks i hi
  have hfits := h i hlive
  rw [hid]
  refine ⟨by rw [hstream]; exact hfits.ring, ?_, ?_⟩
  · intro hstate w handle data hw
    exact hfits.inHand (hcancelled hstate) w handle data ((hworkers w i handle data).mp hw)
  · intro hstate hnone
    exact hfits.atRest (hcancelled hstate) fun w handle data hw => hnone w handle data ((hworkers w i handle data).mpr hw)

theorem Task.Calm.refl (t : Task) : t.Calm t := fun h => ⟨h, rfl, rfl, fun hc => hc⟩

theorem Task.Calm.setTask {t : Task} (h : (s.tasks slot).Calm t) (i : Slot) :
    (s.tasks i).Calm ((s.setTask slot t).tasks i) := by
  rw [tasks_setTask]
  by_cases hi : i = slot
  · rw [if_pos hi, hi]
    exact h
  · rw [if_neg hi]
    exact .refl _

theorem Task.calm_zero (t : Task) : t.Calm Task.zero := fun h => absurd rfl h

theorem Flows.setTask (h : Flows s traffic) {t : Task} (ht : (s.tasks slot).Calm t) : Flows (s.setTask slot t) traffic :=
  h.calm ht.setTask fun _ _ _ _ => Iff.rfl

/-- A worker moves outside a push. -/
theorem Flows.setWorker (h : Flows s traffic) {worker : Worker}
    (hbefore : ∀ slot handle data, s.workers w ≠ .pushing slot handle data)
    (hafter : ∀ slot handle data, worker ≠ .pushing slot handle data) : Flows (s.setWorker w worker) traffic := by
  refine h.calm (fun _ => .refl _) fun w' i handle data => ?_
  show Function.update s.workers w worker w' = _ ↔ _
  by_cases hw : w' = w
  · subst hw
    rw [Function.update_self]
    exact ⟨fun hp => absurd hp (hafter _ _ _), fun hp => absurd hp (hbefore _ _ _)⟩
  · rw [Function.update_of_ne hw]

theorem Flows.cancel (h : Flows s traffic) (id : Int) : Flows (vntNativeHttpAsyncCancel s id).2.1 traffic := by
  unfold vntNativeHttpAsyncCancel
  split
  · exact h
  rename_i slot hfind
  have hset : Flows (s.setTask slot { s.tasks slot with state := .cancelled }) traffic :=
    h.setTask fun _ => ⟨(asyncFindLocked_some hfind).1, rfl, rfl, fun hc => absurd rfl hc⟩
  simp only
  split
  · exact hset
  split
  · exact hset
  · exact h

theorem Flows.release (h : Flows s traffic) (id : Int) : Flows (vntNativeHttpAsyncRelease s id).2 traffic := by
  unfold vntNativeHttpAsyncRelease
  split
  · exact h
  simp only
  split
  · exact h.setTask (Task.calm_zero _)
  split
  · split
    · exact h.setTask (Task.calm_zero _)
    · exact h.setTask fun hl => ⟨hl, rfl, rfl, fun hc => hc⟩
  · exact h

theorem Flows.pop (h : Flows s traffic) (hworker : s.workers w = .popping) (hpop : asyncWorkerPop s w = some s') :
    Flows s' traffic := by
  unfold asyncWorkerPop at hpop
  split at hpop
  · cases hpop
  simp only at hpop
  split at hpop
  · cases hpop
    exact Flows.setTask (s := { s with queue := _ }) h (Task.calm_zero _)
  split at hpop
  · cases hpop
    exact h
  · rename_i hstate
    cases hpop
    have hset : Flows ({ s with queue := s.queue.drop 1 }.setTask (s.queue.cells s.queue.head)
        { s.tasks (s.queue.cells s.queue.head) with state := .running }) traffic := by
      refine Flows.setTask (s := { s with queue := _ }) h fun _ => ?_
      have hqueued : (s.tasks (s.queue.cells s.queue.head)).state = .queued := not_not.mp hstate
      exact ⟨by rw [hqueued]; decide, rfl, rfl, fun _ => by rw [hqueued]; decide⟩
    refine hset.setWorker ?_ nofun
    intro slot handle data hw
    cases hworker.symm.trans hw

theorem Flows.finish (h : Flows s traffic) (hworker : s.workers w = .running slot handle) (response : Option Bytes)
    (length : Nat) (status : Int) : Flows (asyncWorkerFinish s w slot response length status) traffic := by
  have hidle : Flows (s.setWorker w .popping) traffic := by
    refine h.setWorker ?_ nofun
    intro slot handle data hw
    cases hworker.symm.trans hw
  unfold asyncWorkerFinish
  simp only
  split
  · rename_i hrunning
    have hrunning : (s.tasks slot).state = .running := hrunning
    refine hidle.setTask fun _ => ⟨?_, rfl, rfl, fun _ => ?_⟩
    · show (s.tasks slot).state ≠ .free
      rw [hrunning]
      decide
    · show (s.tasks slot).state ≠ .cancelled
      rw [hrunning]
      decide
  split
  · exact hidle.setTask (Task.calm_zero _)
  · exact hidle.setTask fun hl => ⟨hl, rfl, rfl, fun hc => hc⟩

theorem Flows.setTransport (h : Flows s traffic) (id transport : Int) :
    Flows (vntNativeHttpAsyncSetTransport s id transport).1 traffic := by
  unfold vntNativeHttpAsyncSetTransport
  split
  · exact h
  split
  · exact h
  split
  · exact h.setTask fun hl => ⟨hl, rfl, rfl, fun hc => hc⟩
  split
  · exact h
  · exact h

theorem Flows.closeTransport (h : Flows s traffic) (id transport : Int) :
    Flows (vntNativeHttpAsyncShouldCloseTransport s id transport) traffic := by
  unfold vntNativeHttpAsyncShouldCloseTransport
  split
  · exact h
  split
  · exact h
  split
  · exact h.setTask fun hl => ⟨hl, rfl, rfl, fun hc => hc⟩
  · exact h

/-! ## Steps with traffic -/

/-- The traffic of one handle moves, and its task with it. -/
theorem Flows.moved (h : Flows s traffic) (slot : Slot) (hs' : Represents s' b) (hlive : (s'.tasks slot).state ≠ .free)
    (htasks : ∀ j ≠ slot, s'.tasks j = s.tasks j)
    (hworkers : ∀ j ≠ slot, ∀ w handle data, s'.workers w = .pushing j handle data ↔ s.workers w = .pushing j handle data)
    (hothers : ∀ x ≠ (s'.tasks slot).id, traffic' x = traffic x)
    (hslot : Fits (traffic' (s'.tasks slot).id) (s'.tasks slot) s'.workers slot) : Flows s' traffic' := by
  intro j hj
  by_cases hslot' : j = slot
  · subst hslot'
    exact hslot
  · have hid : (s'.tasks j).id ≠ (s'.tasks slot).id := fun he => hslot' (hs'.safe.distinct j slot hj hlive he)
    rw [hothers _ hid]
    rw [htasks j hslot'] at hj ⊢
    have hfits := h j hj
    refine ⟨hfits.ring, ?_, ?_⟩
    · intro hstate w handle data hw
      exact hfits.inHand hstate w handle data ((hworkers j hslot' w handle data).mp hw)
    · intro hstate hnone
      exact hfits.atRest hstate fun w handle data hw => hnone w handle data ((hworkers j hslot' w handle data).mpr hw)

/-- The client reads from the front of the ring. -/
theorem Flows.take (h : Flows s traffic) (hb : Represents s b) (hlive : (s.tasks slot).state ≠ .free)
    (hid : (s.tasks slot).id = id) (maximum : Nat) :
    Flows (streamTake s slot maximum).2 (record traffic (.read id (streamTake s slot maximum).1)) := by
  obtain ⟨n, hn⟩ : ∃ n, min (s.tasks slot).stream.count maximum = n := ⟨_, rfl⟩
  have htask : (streamTake s slot maximum).2.tasks slot =
      { s.tasks slot with stream := (s.tasks slot).stream.drop n } := by
    show (s.setTask slot _).tasks slot = _
    rw [tasks_setTask, if_pos rfl, hn]
  have hbytes : (streamTake s slot maximum).1 = (s.tasks slot).stream.contents.take n := by
    show (s.tasks slot).stream.peek (min (s.tasks slot).stream.count maximum) = _
    rw [hn, Ring.peek_eq _ (by omega)]
  have hfits := h slot hlive
  refine h.moved slot (hb.streamTake slot maximum) (by rw [htask]; exact hlive) (fun j hj => tasks_setTask_ne hj)
    (fun _ _ _ _ _ => Iff.rfl) ?_ ?_
  · intro x hx
    rw [htask] at hx
    exact Function.update_of_ne (hid ▸ hx) _ _
  · rw [htask]
    show Fits (record traffic (.read id (streamTake s slot maximum).1) (s.tasks slot).id) _ s.workers slot
    rw [hid, hbytes]
    show Fits (Function.update traffic id _ id) _ _ _
    rw [Function.update_self]
    rw [hid] at hfits
    refine ⟨?_, hfits.inHand, hfits.atRest⟩
    show (traffic id).pushed = ((traffic id).read ++ (s.tasks slot).stream.contents.take n) ++
      ((s.tasks slot).stream.drop n).contents
    rw [Ring.contents_drop, List.append_assoc, List.take_append_drop]
    exact hfits.ring

/-- The slot of a worker holds the task it took. -/
theorem Represents.owned (h : Represents s b) (hjob : (s.workers w).job = some (slot, handle)) :
    (s.tasks slot).state ≠ .free ∧ (s.tasks slot).id = handle := by
  obtain ⟨c, hplace⟩ := (h.jobs w slot handle).mp hjob
  apply (h.stands slot).live_of_id
  rw [hplace]
  rfl

/-- The worker `w` is the only one that may be pushing into its slot. -/
theorem pushing_sole (hb : Represents s b) (hjob : (s.workers w).job = some (slot, handle)) {w' : Fin 4} {handle' : Int}
    {data : Bytes} (hw' : s.workers w' = .pushing slot handle' data) : w' = w :=
  hb.sole hjob (by rw [hw']; rfl)

/-- After a change of worker `w` in its slot, pushes into other slots are as before. -/
theorem pushing_others {worker : Worker} (hjob : (s.workers w).job = some (slot, handle))
    (hafter : worker.job = some (slot, handle)) : ∀ j ≠ slot, ∀ w' handle' data,
    (s.setWorker w worker).workers w' = .pushing j handle' data ↔ s.workers w' = .pushing j handle' data := by
  intro j hj w' handle' data
  show Function.update s.workers w worker w' = _ ↔ _
  by_cases hw : w' = w
  · subst hw
    rw [Function.update_self]
    constructor
    · intro hp
      rw [hp] at hafter
      cases hafter
      exact absurd rfl hj
    · intro hp
      rw [hp] at hjob
      cases hjob
      exact absurd rfl hj
  · rw [Function.update_of_ne hw]

/-- The worker hands a piece to the sink. -/
theorem Flows.sink (h : Flows s traffic) (hb : Represents s b) (hworker : s.workers w = .running slot handle)
    (data : Bytes) :
    Flows (s.setWorker w (.pushing slot handle data)) (record traffic (.offered handle data)) := by
  have hjob : (s.workers w).job = some (slot, handle) := by rw [hworker]; rfl
  obtain ⟨hlive, hid⟩ := hb.owned hjob
  have hfits := h slot hlive
  rw [hid] at hfits
  have hnone : ∀ w' handle' data', s.workers w' ≠ .pushing slot handle' data' := by
    intro w' handle' data' hw'
    rw [pushing_sole hb hjob hw', hworker] at hw'
    cases hw'
  refine h.moved slot (hb.working (by rw [hworker]; rfl)) hlive (fun _ _ => rfl)
    (pushing_others hjob rfl) ?_ ?_
  · intro x hx
    exact Function.update_of_ne (hid ▸ hx) _ _
  · show Fits (Function.update traffic handle _ (s.tasks slot).id) _ _ _
    rw [hid, Function.update_self]
    refine ⟨hfits.ring, ?_, ?_⟩
    · intro hstate w' handle' data' hw'
      have hsame : data' = data := by
        by_cases hw : w' = w
        · subst hw
          have heq : Function.update s.workers w' (.pushing slot handle data) w' = .pushing slot handle' data' := hw'
          rw [Function.update_self] at heq
          cases heq
          rfl
        · have heq : Function.update s.workers w (.pushing slot handle data) w' = .pushing slot handle' data' := hw'
          rw [Function.update_of_ne hw] at heq
          exact absurd heq (hnone _ _ _)
      rw [hsame]
      exact congrArg (· ++ data) (hfits.atRest hstate hnone)
    · intro hstate hnone'
      exact absurd (Function.update_self w _ s.workers) (hnone' w handle data)

/-- A push that comes to its end adds nothing. -/
theorem Flows.pushEnd (h : Flows s traffic) (hb : Represents s b) {data : Bytes}
    (hworker : s.workers w = .pushing slot handle data)
    (hend : data = [] ∨ (s.tasks slot).state = .cancelled) :
    Flows (s.setWorker w (.running slot handle)) (record traffic (.pushed handle [])) := by
  have hjob : (s.workers w).job = some (slot, handle) := by rw [hworker]; rfl
  obtain ⟨hlive, hid⟩ := hb.owned hjob
  have hfits := h slot hlive
  rw [hid] at hfits
  refine h.moved slot (hb.working (by rw [hworker]; rfl)) hlive (fun _ _ => rfl)
    (pushing_others hjob rfl) ?_ ?_
  · intro x hx
    exact Function.update_of_ne (hid ▸ hx) _ _
  · show Fits (Function.update traffic handle _ (s.tasks slot).id) _ _ _
    rw [hid, Function.update_self]
    refine ⟨?_, ?_, ?_⟩
    · show (traffic handle).pushed ++ [] = _
      rw [List.append_nil]
      exact hfits.ring
    · intro hstate w' handle' data' hw'
      have heq : Function.update s.workers w (.running slot handle) w' = .pushing slot handle' data' := hw'
      by_cases hw : w' = w
      · rw [hw, Function.update_self] at heq
        cases heq
      · rw [Function.update_of_ne hw] at heq
        exact absurd (pushing_sole hb hjob heq) hw
    · intro hstate hnone
      have hdata : data = [] := hend.resolve_right hstate
      have hhand := hfits.inHand hstate w handle data hworker
      rw [hdata] at hhand
      exact hhand

/-- One turn of a push. -/
theorem Flows.push (h : Flows s traffic) (hb : Represents s b) {data bytes : Bytes}
    (hworker : s.workers w = .pushing slot handle data)
    (hpush : asyncStreamPush s w slot handle data = some (s', bytes)) :
    Flows s' (record traffic (.pushed handle bytes)) := by
  have hjob : (s.workers w).job = some (slot, handle) := by rw [hworker]; rfl
  have hb' := hb.push hjob hpush
  unfold asyncStreamPush at hpush
  split at hpush
  · rename_i hdata
    cases hpush
    exact h.pushEnd hb hworker (.inl hdata)
  simp only at hpush
  split at hpush
  · cases hpush
  split at hpush
  · rename_i hrunning
    cases hpush
    have hstate := (hb.safe.jobs w slot handle hjob).2.1
    exact h.pushEnd hb hworker (.inr (hstate.resolve_left hrunning))
  · rename_i hrunning
    have hrunning : (s.tasks slot).state = .running := not_not.mp hrunning
    obtain ⟨hlive, hid⟩ := hb.owned hjob
    have hfits := h slot hlive
    rw [hid] at hfits
    obtain ⟨n, hn⟩ : ∃ n, min data.length (streamCapacity - (s.tasks slot).stream.count) = n := ⟨_, rfl⟩
    cases hpush
    have htask : ∀ t, ((s.setTask slot t).setWorker w (.pushing slot handle (data.drop n))).tasks slot = t := by
      intro t
      show (s.setTask slot t).tasks slot = t
      rw [tasks_setTask, if_pos rfl]
    simp only [hn] at hb' ⊢
    refine h.moved slot hb' (by rw [htask]; exact hlive) (fun j hj => tasks_setTask_ne hj) ?_ ?_ ?_
    · exact pushing_others hjob rfl
    · intro x hx
      rw [htask] at hx
      exact Function.update_of_ne (hid ▸ hx) _ _
    · rw [htask]
      show Fits (Function.update traffic handle _ (s.tasks slot).id) _ _ _
      rw [hid, Function.update_self]
      refine ⟨?_, ?_, ?_⟩
      · show (traffic handle).pushed ++ data.take n = (traffic handle).read ++ (Ring.put _ _ _).contents
        rw [Ring.contents_put, ← List.append_assoc, ← hfits.ring]
      · intro hstate w' handle' data' hw'
        have heq : Function.update s.workers w (.pushing slot handle (data.drop n)) w' = .pushing slot handle' data' := hw'
        have hw : w' = w := by
          by_contra hne
          rw [Function.update_of_ne hne] at heq
          exact hne (pushing_sole hb hjob heq)
        rw [hw, Function.update_self] at heq
        cases heq
        show (traffic handle).offered = ((traffic handle).pushed ++ data.take n) ++ data.drop n
        rw [List.append_assoc, List.take_append_drop]
        exact hfits.inHand hstate w handle data hworker
      · intro hstate hnone
        exact absurd (Function.update_self w _ s.workers) (hnone w handle _)

/-- What a start does to the tasks. -/
theorem start_tasks {method url headers body : Bytes} {mode : Int} {allocated : Bool} {threads : Nat}
    (hb : Represents s b) (h : asyncStartImpl s method url headers body mode allocated threads = some (id, s')) :
    (id = 0 ∧ s'.tasks = s.tasks) ∨ (id ≠ 0 ∧ ∃ slot, (s.tasks slot).state = .free ∧
      s'.tasks = Function.update s.tasks slot { Task.zero with
        id := id, method := method, url := url, headers := headers, body := body, mode := mode, state := .queued }) := by
  unfold asyncStartImpl at h
  split at h
  · cases h; exact .inl ⟨rfl, rfl⟩
  simp only at h
  split at h
  · cases h; exact .inl ⟨rfl, rfl⟩
  split at h
  · cases h; exact .inl ⟨rfl, rfl⟩
  · rename_i slot hfind
    have hslot : (s.tasks slot).state = .free := by
      have hfound := List.find?_some hfind
      exact of_decide_eq_true hfound
    split at h
    · cases h
    · rename_i candidate next hpick
      cases h
      have hpos := (pickHandle_some hb.handle hpick).1
      refine .inr ⟨by omega, slot, hslot, ?_⟩
      exact Function.update_idem _ _ _

/-- A new handle has no traffic. -/
theorem Flows.start (h : Flows s traffic) {b' : Board} {method url headers body : Bytes} {mode : Int} {allocated : Bool}
    {threads : Nat} (hb : Represents s b) (hb' : Represents s' b')
    (hstart : asyncStartImpl s method url headers body mode allocated threads = some (id, s')) :
    Flows s' (record traffic (if id = 0 then .returned 0 else .started id)) := by
  have hworkers := start_workers hstart
  rcases start_tasks hb hstart with ⟨hzero, htasks⟩ | ⟨hid, slot, hfree, htasks⟩
  · rw [if_pos hzero]
    refine h.calm (fun i => ?_) fun w i handle data => by rw [hworkers]
    rw [htasks]
    exact .refl _
  · rw [if_neg hid]
    have htask : s'.tasks slot = { Task.zero with
        id := id, method := method, url := url, headers := headers, body := body, mode := mode, state := .queued } := by
      rw [htasks, Function.update_self]
    refine h.moved slot hb' (by rw [htask]; exact nofun) (fun j hj => ?_) (fun j _ w handle data => by rw [hworkers])
      ?_ ?_
    · rw [htasks, Function.update_of_ne hj]
    · intro x hx
      rw [htask] at hx
      exact Function.update_of_ne hx _ _
    · rw [htask]
      show Fits (Function.update traffic id _ id) _ _ _
      rw [Function.update_self]
      refine ⟨rfl, ?_, fun _ _ => rfl⟩
      -- no worker has a slot that was free
      intro _ w handle data hw
      rw [hworkers] at hw
      have hstate := (hb.safe.jobs w slot handle (by rw [hw]; rfl)).2.1
      rw [hfree] at hstate
      rcases hstate with hstate | hstate <;> cases hstate

/-! ## Whole runs -/

theorem Flows.clientStep (h : Flows s traffic) (hb : Represents s b) {b' : Board} (hb' : Represents s' b')
    (hstep : clientStep s a = some (s', o)) : Flows s' (record traffic o) := by
  cases clientStep_cases hstep with
  | start ha hstart => exact h.start hb hb' hstart
  | returned | copied | sleeps => exact h
  | cancel id => exact h.cancel id
  | release id => exact h.release id
  | reads maximum hfind =>
      obtain ⟨hlive, hid⟩ := asyncFindLocked_some hfind
      exact h.take hb hlive hid maximum

theorem Flows.wakeStep (h : Flows s traffic) (hb : Represents s b) {timedOut : Bool}
    (hstep : wakeStep s timedOut = some (s', o)) : Flows s' (record traffic o) := by
  cases wakeStep_cases hstep with
  | still | returns => exact h
  | @reads slot handle maximum hclient =>
      have hheld := hb.held slot handle (by rw [hclient]; rfl)
      obtain ⟨hlive, hid⟩ := (hb.stands slot).live_of_id hheld.1
      exact h.take hb hlive hid maximum

theorem Flows.workerStep (h : Flows s traffic) (hb : Represents s b) (hstep : workerStep s w a = some (s', o)) :
    Flows s' (record traffic o) := by
  cases workerStep_cases hstep with
  | pop hworker hpop => exact h.pop hworker hpop
  | sink data hworker => exact h.sink hb hworker data
  | push hworker hpush => exact h.push hb hworker hpush
  | setTransport => exact h.setTransport _ _
  | closeTransport => exact h.closeTransport _ _
  | finish response length status hworker => exact h.finish hworker _ _ _

/-- **One step keeps the traffic and the rings together.** -/
theorem Flows.step (h : Flows s traffic) (hb : Represents s b) (hstep : step s a = some (s', o)) :
    Flows s' (record traffic o) := by
  obtain ⟨b', hb'⟩ := hb.step hstep
  rcases step_cases hstep with ⟨w, -, hw⟩ | ⟨-, hc⟩ | ⟨timedOut, -, hwake⟩
  · exact h.workerStep hb hw
  · exact h.clientStep hb hb' hc
  · exact h.wakeStep hb hwake

theorem Runs.flows {trace : Trace} (h : Runs .initial trace s) : Flows s (history trace) := by
  generalize hinit : AsyncState.initial = s₀ at h
  induction h with
  | nil =>
      subst hinit
      exact fun i hi => absurd rfl hi
  | snoc hrun hstep ih =>
      subst hinit
      obtain ⟨b, hb⟩ := hrun.represents Represents.initial
      rw [history_snoc]
      exact ih.step hb hstep

/-- **Streaming loses nothing.** In every state of every run, for every live handle: what was pushed is what was read
    followed by the ring, which holds at most 65536 bytes; and once `_stream_done` returns 1 for a stream that was not
    cancelled, all that its request handed to the sink was pushed and has been read. -/
theorem asyncStream_lossless {trace : Trace} (h : Runs .initial trace s) (id : Int) (slot : Slot)
    (hfind : s.asyncFindLocked id = some slot) :
    (history trace id).pushed = (history trace id).read ++ (s.tasks slot).stream.contents ∧
      (s.tasks slot).stream.count ≤ 65536 ∧
      ((s.tasks slot).mode = 1 → (s.tasks slot).state ≠ .cancelled → vntNativeHttpAsyncStreamDone s id = 1 →
        (history trace id).read = (history trace id).pushed ∧ (history trace id).offered = (history trace id).pushed) := by
  obtain ⟨b, hb⟩ := h.represents Represents.initial
  obtain ⟨hlive, hid⟩ := asyncFindLocked_some hfind
  have hfits := h.flows slot hlive
  rw [hid] at hfits
  refine ⟨hfits.ring, (s.tasks slot).stream.count_le, fun hmode hstate hdone => ?_⟩
  unfold vntNativeHttpAsyncStreamDone at hdone
  simp only [hfind, hmode, if_true] at hdone
  split at hdone
  · rename_i hended
    have hsettled := (hb.stands slot).of_done (hended.1.resolve_right hstate)
    have hempty : (s.tasks slot).stream.contents = [] := by
      rw [← List.length_eq_zero_iff, Ring.length_contents]
      exact hended.2
    have hring := hfits.ring
    rw [hempty, List.append_nil] at hring
    refine ⟨hring.symm, hfits.atRest hstate fun w handle data hw => ?_⟩
    obtain ⟨c, hc⟩ := (hb.jobs w slot handle).mp (by rw [hw]; rfl)
    cases hsettled.symm.trans hc
  · cases hdone

/-- Five bytes go through the ring of a stream that then ends. -/
theorem fiveBytes_lossless : ∃ trace s, Runs .initial trace s ∧ s.asyncFindLocked 1 = some 0 ∧
    vntNativeHttpAsyncStreamDone s 1 = 1 ∧ (history trace 1).read = [1, 2, 3, 4, 5] ∧
    (history trace 1).offered = (history trace 1).pushed := by
  have hrun := (((((((Runs.nil (s := .initial)).snoc
    (rfl : step _ (.streamStart [71] [104] [] [] true 4) = some (_, .started 1))).snoc
    (rfl : step _ (.pop 0) = some (_, .quiet))).snoc
    (rfl : step _ (.sink 0 [1, 2, 3, 4, 5]) = some (_, .offered 1 _))).snoc
    (rfl : step _ (.push 0) = some (_, .pushed 1 [1, 2, 3, 4, 5]))).snoc
    (rfl : step _ (.push 0) = some (_, .pushed 1 []))).snoc
    (rfl : step _ (.finish 0 none 0 200) = some (_, .quiet))).snoc
    (rfl : step _ (.streamRead 1 0) = some (_, .read 1 [1, 2, 3, 4, 5]))
  have hdone := (asyncStream_lossless hrun 1 0 rfl).2.2 rfl nofun rfl
  exact ⟨_, _, hrun, rfl, rfl, rfl, hdone.2⟩

end Vnt.Async
