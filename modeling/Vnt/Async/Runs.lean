import Vnt.Async.Represents

/-!
# `Vnt.Async.Runs`: what holds across every interleaving

A run is a sequence of steps of the client and the workers. Every state of a run represents a board, so the table is
safe; a worker keeps its task until it finishes it, and a finished task keeps its answer until it is released.
-/

namespace Vnt.Async

variable {s s' : AsyncState} {b : Board} {i slot : Slot} {w : Fin 4} {id handle : Int} {a : Act} {o : Outcome}

/-- The steps of a run, each with what it shows. -/
abbrev Trace := List (Act × Outcome)

inductive Runs : AsyncState → Trace → AsyncState → Prop where
  | nil {s : AsyncState} : Runs s [] s
  | snoc {s s' s'' : AsyncState} {trace : Trace} {a : Act} {o : Outcome} :
      Runs s trace s' → step s' a = some (s'', o) → Runs s (trace ++ [(a, o)]) s''

theorem Runs.represents {trace : Trace} (hrun : Runs s trace s') (h : ∃ b, Represents s b) : ∃ b, Represents s' b := by
  induction hrun with
  | nil => exact h
  | snoc _ hstep ih =>
      obtain ⟨b, hb⟩ := ih
      exact hb.step hstep

/-! ## What a step leaves alone -/

/-- What the client asked for. -/
def Task.request (t : Task) : Int × Bytes × Bytes × Bytes × Bytes × Int :=
  (t.id, t.method, t.url, t.headers, t.body, t.mode)

/-- What the client can learn. -/
def Task.answer (t : Task) : TaskState × Option Bytes × Nat × Int := (t.state, t.response, t.responseLength, t.status)

/-- The tasks a step may change beyond their transport, their release flag and their stream. -/
def Touches (s : AsyncState) (i : Slot) : Act → Prop
  | .start _ _ _ _ _ _ | .streamStart _ _ _ _ _ _ => (s.tasks i).state = .free
  | .cancel id => (s.tasks i).id = id ∧ ((s.tasks i).state = .queued ∨ (s.tasks i).state = .running)
  | .release id => (s.tasks i).id = id ∧ (vntNativeHttpAsyncRelease s id).1 = 1 ∧
      ((s.tasks i).state = .done ∨ (s.tasks i).workerFinished = true)
  | .pop _ => s.queue.count ≠ 0 ∧ s.queue.cells s.queue.head = i
  | .finish w _ _ _ => ∃ handle, (s.workers w).job = some (i, handle)
  | _ => False

theorem tasks_setTask (s : AsyncState) (slot i : Slot) (t : Task) :
    (s.setTask slot t).tasks i = if i = slot then t else s.tasks i := by
  show Function.update s.tasks slot t i = _
  by_cases h : i = slot
  · subst h
    rw [Function.update_self, if_pos rfl]
  · rw [Function.update_of_ne h, if_neg h]

/-- A task after a change of fields that are neither request nor answer. -/
theorem kept_setTask {t : Task} (hrequest : t.request = (s.tasks slot).request)
    (hanswer : t.answer = (s.tasks slot).answer) :
    ((s.setTask slot t).tasks i).request = (s.tasks i).request ∧
      ((s.setTask slot t).tasks i).answer = (s.tasks i).answer := by
  rw [tasks_setTask]
  by_cases h : i = slot
  · rw [if_pos h, h]
    exact ⟨hrequest, hanswer⟩
  · rw [if_neg h]
    exact ⟨rfl, rfl⟩

/-- The other slots do not see a change of one. -/
theorem tasks_setTask_ne {t : Task} (h : i ≠ slot) : (s.setTask slot t).tasks i = s.tasks i := by
  rw [tasks_setTask, if_neg h]

theorem start_kept {method url headers body : Bytes} {mode : Int} {allocated : Bool} {threads : Nat}
    (h : asyncStartImpl s method url headers body mode allocated threads = some (id, s'))
    (hlive : (s.tasks i).state ≠ .free) : s'.tasks i = s.tasks i := by
  unfold asyncStartImpl at h
  split at h
  · cases h; rfl
  simp only at h
  split at h
  · cases h; rfl
  split at h
  · cases h; rfl
  · rename_i slot hfind
    have hslot : (s.tasks slot).state = .free := by
      have hfound := List.find?_some hfind
      exact of_decide_eq_true hfound
    have hne : i ≠ slot := fun he => hlive (he ▸ hslot)
    split at h
    · cases h
    · cases h
      show Function.update (Function.update _ _ _) _ _ i = _
      rw [Function.update_of_ne hne, Function.update_of_ne hne]
      rfl

theorem push_kept {data bytes : Bytes} (h : asyncStreamPush s w slot handle data = some (s', bytes)) :
    (s'.tasks i).request = (s.tasks i).request ∧ (s'.tasks i).answer = (s.tasks i).answer := by
  unfold asyncStreamPush at h
  split at h
  · cases h; exact ⟨rfl, rfl⟩
  simp only at h
  split at h
  · cases h
  split at h
  · cases h; exact ⟨rfl, rfl⟩
  · cases h
    exact kept_setTask (s := s) rfl rfl

theorem setTransport_kept (s : AsyncState) (id transport : Int) (i : Slot) :
    ((vntNativeHttpAsyncSetTransport s id transport).1.tasks i).request = (s.tasks i).request ∧
      ((vntNativeHttpAsyncSetTransport s id transport).1.tasks i).answer = (s.tasks i).answer := by
  unfold vntNativeHttpAsyncSetTransport
  split
  · exact ⟨rfl, rfl⟩
  split
  · exact ⟨rfl, rfl⟩
  split
  · exact kept_setTask rfl rfl
  split <;> exact ⟨rfl, rfl⟩

theorem closeTransport_kept (s : AsyncState) (id transport : Int) (i : Slot) :
    ((vntNativeHttpAsyncShouldCloseTransport s id transport).tasks i).request = (s.tasks i).request ∧
      ((vntNativeHttpAsyncShouldCloseTransport s id transport).tasks i).answer = (s.tasks i).answer := by
  unfold vntNativeHttpAsyncShouldCloseTransport
  split
  · exact ⟨rfl, rfl⟩
  split
  · exact ⟨rfl, rfl⟩
  split
  · exact kept_setTask rfl rfl
  · exact ⟨rfl, rfl⟩

/-- A cancelled task is only marked. -/
theorem cancel_kept (s : AsyncState) (id : Int) (i : Slot) :
    ((vntNativeHttpAsyncCancel s id).2.1.tasks i).request = (s.tasks i).request ∧
      (¬ Touches s i (.cancel id) → ((vntNativeHttpAsyncCancel s id).2.1.tasks i).answer = (s.tasks i).answer) := by
  unfold vntNativeHttpAsyncCancel
  split
  · exact ⟨rfl, fun _ => rfl⟩
  rename_i slot hfind
  have hid := (asyncFindLocked_some hfind).2
  simp only
  have hset : ∀ hstate : (s.tasks slot).state = .queued ∨ (s.tasks slot).state = .running,
      ((s.setTask slot { s.tasks slot with state := .cancelled }).tasks i).request = (s.tasks i).request ∧
        (¬ Touches s i (.cancel id) →
          ((s.setTask slot { s.tasks slot with state := .cancelled }).tasks i).answer = (s.tasks i).answer) := by
    intro hstate
    rw [tasks_setTask]
    by_cases hi : i = slot
    · subst hi
      rw [if_pos rfl]
      exact ⟨rfl, fun htouch => absurd ⟨hid, hstate⟩ htouch⟩
    · rw [if_neg hi]
      exact ⟨rfl, fun _ => rfl⟩
  split
  · rename_i hstate
    exact hset (.inl hstate)
  split
  · rename_i hstate
    exact hset (.inr hstate)
  · exact ⟨rfl, fun _ => rfl⟩

theorem release_kept (htouch : ¬ Touches s i (.release id)) :
    ((vntNativeHttpAsyncRelease s id).2.tasks i).request = (s.tasks i).request ∧
      ((vntNativeHttpAsyncRelease s id).2.tasks i).answer = (s.tasks i).answer := by
  unfold Touches vntNativeHttpAsyncRelease at htouch
  unfold vntNativeHttpAsyncRelease
  cases hfind : s.asyncFindLocked id with
  | none => exact ⟨rfl, rfl⟩
  | some slot =>
      have hid := (asyncFindLocked_some hfind).2
      simp only [hfind] at htouch ⊢
      by_cases hdone : (s.tasks slot).state = .done ∧ ((s.tasks slot).mode ≠ 1 ∨ (s.tasks slot).stream.count = 0)
      · rw [if_pos hdone] at htouch ⊢
        have hne : i ≠ slot := fun he => htouch ⟨he ▸ hid, rfl, .inl (he ▸ hdone.1)⟩
        rw [tasks_setTask_ne hne]
        exact ⟨rfl, rfl⟩
      · rw [if_neg hdone] at htouch ⊢
        by_cases hcancelled : (s.tasks slot).state = .cancelled
        · rw [if_pos hcancelled] at htouch ⊢
          by_cases hfinished : (s.tasks slot).workerFinished = true
          · rw [if_pos hfinished] at htouch ⊢
            have hne : i ≠ slot := fun he => htouch ⟨he ▸ hid, rfl, .inr (he ▸ hfinished)⟩
            rw [tasks_setTask_ne hne]
            exact ⟨rfl, rfl⟩
          · rw [if_neg hfinished]
            exact kept_setTask rfl rfl
        · rw [if_neg hcancelled]
          exact ⟨rfl, rfl⟩

theorem pop_kept (h : asyncWorkerPop s w = some s') (htouch : ¬ Touches s i (.pop w)) : s'.tasks i = s.tasks i := by
  unfold asyncWorkerPop at h
  split at h
  · cases h
  rename_i hcount
  have hne : i ≠ s.queue.cells s.queue.head := fun he => htouch ⟨hcount, he.symm⟩
  simp only at h
  split at h
  · cases h
    exact tasks_setTask_ne hne
  split at h
  · cases h; rfl
  · cases h
    exact tasks_setTask_ne hne

theorem finish_kept {response : Option Bytes} {length : Nat} {status : Int} (hne : i ≠ slot) :
    (asyncWorkerFinish s w slot response length status).tasks i = s.tasks i := by
  unfold asyncWorkerFinish
  simp only
  split
  · exact tasks_setTask_ne hne
  split
  · exact tasks_setTask_ne hne
  · exact tasks_setTask_ne hne

/-- **The frame of a step.** A task that a step does not touch keeps its request and its answer. -/
theorem step_kept (h : step s a = some (s', o)) (htouch : ¬ Touches s i a) :
    (s'.tasks i).request = (s.tasks i).request ∧ (s'.tasks i).answer = (s.tasks i).answer := by
  rcases step_cases h with ⟨w, hw, hstep⟩ | ⟨hready, hstep⟩ | ⟨timedOut, rfl, hstep⟩
  · cases workerStep_cases hstep with
    | pop hworker hpop =>
        cases hw
        rw [pop_kept hpop htouch]
        exact ⟨rfl, rfl⟩
    | sink => exact ⟨rfl, rfl⟩
    | push hworker hpush => exact push_kept hpush
    | setTransport => exact setTransport_kept _ _ _ _
    | closeTransport => exact closeTransport_kept _ _ _ _
    | @finish w' slot handle response length status hworker =>
        cases hw
        have hne : i ≠ slot := fun he => htouch ⟨handle, by rw [hworker, he]; rfl⟩
        rw [finish_kept hne]
        exact ⟨rfl, rfl⟩
  · cases clientStep_cases hstep with
    | start ha hstart =>
        have hlive : (s.tasks i).state ≠ .free := by
          rcases ha with rfl | rfl
          · exact htouch
          · exact htouch
        rw [start_kept hstart hlive]
        exact ⟨rfl, rfl⟩
    | returned | copied | sleeps => exact ⟨rfl, rfl⟩
    | cancel id =>
        have hkept := cancel_kept s id i
        exact ⟨hkept.1, hkept.2 htouch⟩
    | release id => exact release_kept htouch
    | reads => exact kept_setTask rfl rfl
  · cases wakeStep_cases hstep with
    | still | returns => exact ⟨rfl, rfl⟩
    | reads => exact kept_setTask (s := s) rfl rfl

/-! ## Who changes a worker -/

theorem setTransport_workers (s : AsyncState) (id transport : Int) :
    (vntNativeHttpAsyncSetTransport s id transport).1.workers = s.workers := by
  unfold vntNativeHttpAsyncSetTransport
  split
  · rfl
  split
  · rfl
  split
  · rfl
  split <;> rfl

theorem closeTransport_workers (s : AsyncState) (id transport : Int) :
    (vntNativeHttpAsyncShouldCloseTransport s id transport).workers = s.workers := by
  unfold vntNativeHttpAsyncShouldCloseTransport
  split
  · rfl
  split
  · rfl
  split <;> rfl

theorem finish_workers (s : AsyncState) (w : Fin 4) (slot : Slot) (response : Option Bytes) (length : Nat)
    (status : Int) :
    (asyncWorkerFinish s w slot response length status).workers = (s.setWorker w .popping).workers := by
  unfold asyncWorkerFinish
  simp only
  split
  · rfl
  split <;> rfl

theorem start_workers {method url headers body : Bytes} {mode : Int} {allocated : Bool} {threads : Nat}
    (h : asyncStartImpl s method url headers body mode allocated threads = some (id, s')) : s'.workers = s.workers := by
  unfold asyncStartImpl at h
  split at h
  · cases h; rfl
  simp only at h
  split at h
  · cases h; rfl
  split at h
  · cases h; rfl
  split at h
  · cases h
  · cases h; rfl

theorem cancel_workers (s : AsyncState) (id : Int) : (vntNativeHttpAsyncCancel s id).2.1.workers = s.workers := by
  unfold vntNativeHttpAsyncCancel
  split
  · rfl
  simp only
  split
  · rfl
  split <;> rfl

theorem release_workers (s : AsyncState) (id : Int) : (vntNativeHttpAsyncRelease s id).2.workers = s.workers := by
  unfold vntNativeHttpAsyncRelease
  split
  · rfl
  simp only
  split
  · rfl
  split
  · split <;> rfl
  · rfl

theorem clientStep_workers (h : clientStep s a = some (s', o)) : s'.workers = s.workers := by
  cases clientStep_cases h with
  | start ha hstart => exact start_workers hstart
  | returned | copied | sleeps | reads => rfl
  | cancel id => exact cancel_workers s id
  | release id => exact release_workers s id

theorem wakeStep_workers {timedOut : Bool} (h : wakeStep s timedOut = some (s', o)) : s'.workers = s.workers := by
  cases wakeStep_cases h with
  | still | returns | reads => rfl

/-! ## Which tasks a step can touch -/

/-- The slot at the head of the queue holds a waiting task. -/
theorem Represents.head_queued (h : Represents s b) (hcount : s.queue.count ≠ 0) :
    (b.place (s.queue.cells s.queue.head)).isQueued = true := by
  rw [← b.mem_queue, ← h.queue, s.queue.contents_cons hcount]
  exact List.mem_cons_self

/-- A done task is touched by its release alone. -/
theorem Represents.done_untouched (h : Represents s b) (hstep : Async.step s a = some (s', o))
    (hdone : (s.tasks i).state = .done) (hrelease : (a, o) ≠ (.release (s.tasks i).id, .returned 1)) :
    ¬ Touches s i a := by
  have hplace := (h.stands i).of_done hdone
  intro htouch
  cases a with
  | start | streamStart => exact absurd (hdone.symm.trans htouch) nofun
  | cancel id =>
      rcases htouch.2 with hstate | hstate
      · exact absurd (hdone.symm.trans hstate) nofun
      · exact absurd (hdone.symm.trans hstate) nofun
  | release id =>
      obtain ⟨hid, hreturned, -⟩ := htouch
      rcases step_cases hstep with ⟨w, hw, -⟩ | ⟨-, hc⟩ | ⟨timedOut, hw, -⟩
      · cases hw
      · cases hc
        apply hrelease
        rw [hid]
        exact congrArg (fun value => (Act.release id, Outcome.returned value)) hreturned
      · cases hw
  | pop w =>
      have hqueued := h.head_queued htouch.1
      rw [htouch.2, hplace] at hqueued
      cases hqueued
  | finish w =>
      obtain ⟨handle, hjob⟩ := htouch
      obtain ⟨c, hc⟩ := (h.jobs w i handle).mp hjob
      cases hplace.symm.trans hc
  | _ => exact htouch

/-- A worker's task is touched by that worker's finish, and marked by a cancellation. -/
theorem Represents.owned_untouched (h : Represents s b) (hjob : (s.workers w).job = some (i, handle))
    (hfinish : ∀ response length status, a ≠ .finish w response length status) :
    ¬ Touches s i a ∨ ∃ id, a = .cancel id := by
  obtain ⟨c, hplace⟩ := (h.jobs w i handle).mp hjob
  have hstands := h.stands i
  rw [hplace] at hstands
  by_cases hcancel : ∃ id, a = .cancel id
  · exact .inr hcancel
  refine .inl fun htouch => ?_
  cases a with
  | start | streamStart =>
      have hfree := (h.stands i).of_free htouch
      cases hplace.symm.trans hfree
  | cancel id => exact hcancel ⟨id, rfl⟩
  | release id =>
      rcases htouch.2.2 with hdone | hfinished
      · cases hplace.symm.trans ((h.stands i).of_done hdone)
      · cases hstands.2.2.symm.trans hfinished
  | pop w' =>
      have hqueued := h.head_queued htouch.1
      rw [htouch.2, hplace] at hqueued
      cases hqueued
  | finish w' response length status =>
      obtain ⟨handle', hjob'⟩ := htouch
      exact hfinish response length status (by rw [h.sole hjob hjob'])
  | _ => exact htouch

/-- Workers keep the job they have, until they finish it. -/
theorem job_kept (h : step s a = some (s', o)) {job : Slot × Int} (hjob : (s.workers w).job = some job)
    (hfinish : ∀ response length status, a ≠ .finish w response length status) : (s'.workers w).job = some job := by
  have hset : ∀ (w' : Fin 4) (worker : Worker) (s₁ : AsyncState), s₁.workers = s.workers →
      (w' = w → worker.job = (s.workers w).job) → ((s₁.setWorker w' worker).workers w).job = some job := by
    intro w' worker s₁ heq hsame
    rw [job_setWorker]
    by_cases hw : w = w'
    · rw [if_pos hw, hsame hw.symm, hjob]
    · rw [if_neg hw, heq, hjob]
  rcases step_cases h with ⟨w', hw', hstep⟩ | ⟨hready, hstep⟩ | ⟨timedOut, rfl, hstep⟩
  · cases workerStep_cases hstep with
    | pop hworker hpop =>
        unfold asyncWorkerPop at hpop
        split at hpop
        · cases hpop
        simp only at hpop
        split at hpop
        · cases hpop; exact hjob
        split at hpop
        · cases hpop; exact hjob
        · cases hpop
          refine hset _ _ _ rfl fun heq => ?_
          rw [← heq, hworker] at hjob
          cases hjob
    | sink data hworker => exact hset _ _ s rfl fun heq => by rw [← heq, hworker]; rfl
    | push hworker hpush =>
        unfold asyncStreamPush at hpush
        split at hpush
        · cases hpush
          exact hset _ _ s rfl fun heq => by rw [← heq, hworker]; rfl
        simp only at hpush
        split at hpush
        · cases hpush
        split at hpush
        · cases hpush
          exact hset _ _ s rfl fun heq => by rw [← heq, hworker]; rfl
        · cases hpush
          exact hset _ _ _ rfl fun heq => by rw [← heq, hworker]; rfl
    | setTransport => rw [setTransport_workers, hjob]
    | closeTransport => rw [closeTransport_workers, hjob]
    | finish response length status hworker =>
        cases hw'
        have hne : w ≠ w' := fun heq => hfinish response length status (by rw [heq])
        rw [finish_workers, job_setWorker, if_neg hne, hjob]
  · rw [clientStep_workers hstep, hjob]
  · rw [wakeStep_workers hstep, hjob]

/-! ## Whole runs -/

/-- A worker keeps its task, whose request does not change, until it finishes it. -/
theorem Runs.job_kept {trace : Trace} (hrun : Runs s trace s') (h : Represents s b)
    (hjob : (s.workers w).job = some (i, handle))
    (hfinish : ∀ x ∈ trace, ∀ response length status, x.1 ≠ .finish w response length status) :
    (s'.workers w).job = some (i, handle) ∧ (s'.tasks i).request = (s.tasks i).request := by
  induction hrun with
  | nil => exact ⟨hjob, rfl⟩
  | snoc hrun hstep ih =>
      rename_i s' s'' trace a o
      have hbefore := ih fun x hx => hfinish x (List.mem_append_left _ hx)
      have hlast := hfinish (a, o) (by simp)
      obtain ⟨b', hb'⟩ := hrun.represents ⟨b, h⟩
      refine ⟨Async.job_kept hstep hbefore.1 hlast, ?_⟩
      rw [← hbefore.2]
      rcases hb'.owned_untouched hbefore.1 hlast with htouch | ⟨id, rfl⟩
      · exact (step_kept hstep htouch).1
      · rcases step_cases hstep with ⟨w', hw', -⟩ | ⟨-, hc⟩ | ⟨timedOut, hw', -⟩
        · cases hw'
        · cases hc
          exact (cancel_kept s' id i).1
        · cases hw'

/-- A done task keeps its answer until it is released. -/
theorem Runs.done_kept {trace : Trace} (hrun : Runs s trace s') (h : Represents s b)
    (hdone : (s.tasks i).state = .done)
    (hrelease : ∀ x ∈ trace, x ≠ (.release (s.tasks i).id, .returned 1)) :
    (s'.tasks i).request = (s.tasks i).request ∧ (s'.tasks i).answer = (s.tasks i).answer := by
  induction hrun with
  | nil => exact ⟨rfl, rfl⟩
  | snoc hrun hstep ih =>
      rename_i s' s'' trace a o
      have hbefore := ih fun x hx => hrelease x (List.mem_append_left _ hx)
      have hlast := hrelease (a, o) (by simp)
      obtain ⟨b', hb'⟩ := hrun.represents ⟨b, h⟩
      have hid : (s'.tasks i).id = (s.tasks i).id := congrArg Prod.fst hbefore.1
      have hstate : (s'.tasks i).state = .done := (congrArg Prod.fst hbefore.2).trans hdone
      have hkept := step_kept hstep (hb'.done_untouched hstep hstate (by rw [hid]; exact hlast))
      exact ⟨hkept.1.trans hbefore.1, hkept.2.trans hbefore.2⟩

/-! ## What the client sees of a task -/

theorem poll_done : vntNativeHttpAsyncPoll s id = 1 ↔
    ∃ slot, s.asyncFindLocked id = some slot ∧ (s.tasks slot).state = .done := by
  unfold vntNativeHttpAsyncPoll
  cases hfind : s.asyncFindLocked id with
  | none => exact ⟨nofun, nofun⟩
  | some slot =>
      simp only [Option.some.injEq, exists_eq_left']
      cases (s.tasks slot).state <;> decide

/-- What `_result` and `_status` return for a done task. -/
theorem result_of_done (hfind : s.asyncFindLocked id = some slot) (hdone : (s.tasks slot).state = .done) :
    vntNativeHttpAsyncResult s id = ((s.tasks slot).response.elim (some [], 0)
      fun response => (some (asyncStrdup response), (s.tasks slot).responseLength)) ∧
    vntNativeHttpAsyncStatus s id = (s.tasks slot).status := by
  unfold vntNativeHttpAsyncResult vntNativeHttpAsyncStatus
  rw [hfind]
  simp only [hdone, if_true]
  cases (s.tasks slot).response <;> exact ⟨rfl, trivial⟩

/-- **A handle seen as done keeps its answer.** -/
theorem Runs.answer_kept {trace : Trace} (hrun : Runs s trace s') (h : Represents s b)
    (hpoll : vntNativeHttpAsyncPoll s id = 1) (hrelease : ∀ x ∈ trace, x ≠ (.release id, .returned 1)) :
    vntNativeHttpAsyncPoll s' id = 1 ∧ vntNativeHttpAsyncResult s' id = vntNativeHttpAsyncResult s id ∧
      vntNativeHttpAsyncStatus s' id = vntNativeHttpAsyncStatus s id := by
  obtain ⟨slot, hfind, hdone⟩ := poll_done.mp hpoll
  have hid := (asyncFindLocked_some hfind).2
  obtain ⟨hrequest, hanswer⟩ := hrun.done_kept h hdone (by rw [hid]; exact hrelease)
  simp only [Task.request, Task.answer, Prod.mk.injEq] at hrequest hanswer
  obtain ⟨b', hb'⟩ := hrun.represents ⟨b, h⟩
  have hdone' : (s'.tasks slot).state = .done := hanswer.1.trans hdone
  have hfind' : s'.asyncFindLocked id = some slot := by
    rw [← hid, ← hrequest.1]
    exact asyncFindLocked_of_live hb' (by rw [hdone']; decide)
  obtain ⟨hresult, hstatus⟩ := result_of_done hfind hdone
  obtain ⟨hresult', hstatus'⟩ := result_of_done hfind' hdone'
  refine ⟨poll_done.mpr ⟨slot, hfind', hdone'⟩, ?_, ?_⟩
  · rw [hresult, hresult', hanswer.2.1, hanswer.2.2.1]
  · rw [hstatus, hstatus', hanswer.2.2.2]

/-- **The answer is the handle's own**: what the request of the worker returned. -/
theorem Represents.finish_answer (h : Represents s b) (hworker : s.workers w = .running slot handle)
    (hrunning : (s.tasks slot).state = .running) (response : Option Bytes) (length : Nat) (status : Int)
    (hstep : Async.step s (.finish w response length status) = some (s', o)) :
    vntNativeHttpAsyncPoll s' handle = 1 ∧ vntNativeHttpAsyncStatus s' handle = status ∧
      vntNativeHttpAsyncResult s' handle =
        response.elim (some [], 0) fun response => (some (asyncStrdup response), length) := by
  obtain ⟨b', hb'⟩ := h.step hstep
  have hs' : s' = asyncWorkerFinish s w slot response length status := by
    rcases step_cases hstep with ⟨w', hw', hw⟩ | ⟨-, hc⟩ | ⟨timedOut, hw', -⟩
    · cases hw'
      simp only [Async.workerStep, hworker] at hw
      cases hw
      rfl
    · cases hc
    · cases hw'
  obtain ⟨c, hplace⟩ := (h.jobs w slot handle).mp (by rw [hworker]; rfl)
  have hid : (s.tasks slot).id = handle := ((h.stands slot).live_of_id (by rw [hplace]; rfl)).2
  have htask : s'.tasks slot = { s.tasks slot with
      workerFinished := true
      response := response
      responseLength := if response.isSome then length else 0
      status := status
      state := .done } := by
    rw [hs', asyncWorkerFinish]
    simp only [hrunning, if_true]
    rw [tasks_setTask, if_pos rfl]
  have hdone : (s'.tasks slot).state = .done := by rw [htask]
  have hfind : s'.asyncFindLocked handle = some slot := by
    have hlive := asyncFindLocked_of_live hb' (i := slot) (by rw [hdone]; decide)
    rw [htask] at hlive
    rw [← hid]
    exact hlive
  obtain ⟨hresult, hstatus⟩ := result_of_done hfind hdone
  refine ⟨poll_done.mpr ⟨slot, hfind, hdone⟩, ?_, ?_⟩
  · rw [hstatus, htask]
  · rw [hresult, htask]
    cases response <;> rfl

/-! ## Safety -/

/-- What holds of the table, its queue and its workers in one state. -/
structure AsyncState.Safe (s : AsyncState) : Prop where
  positive : ∀ i, (s.tasks i).state ≠ .free → 0 < (s.tasks i).id
  distinct : ∀ i j, (s.tasks i).state ≠ .free → (s.tasks j).state ≠ .free → (s.tasks i).id = (s.tasks j).id → i = j
  queuedOnce : ∀ i, (s.tasks i).state = .queued → s.queue.contents.count i = 1
  window : ∀ i ∈ s.queue.contents, s.queue.contents.count i = 1 ∧ ((s.tasks i).state = .queued ∨
    ((s.tasks i).state = .cancelled ∧ (s.tasks i).workerFinished = false)) ∧
      ∀ w handle, (s.workers w).job ≠ some (i, handle)
  running : ∀ i, (s.tasks i).state = .running → ∃! w, (s.workers w).job = some (i, (s.tasks i).id)
  jobs : ∀ w i handle, (s.workers w).job = some (i, handle) → (s.tasks i).id = handle ∧
    ((s.tasks i).state = .running ∨ (s.tasks i).state = .cancelled) ∧
      ∀ w' handle', (s.workers w').job = some (i, handle') → w' = w

theorem Represents.safe (h : Represents s b) : s.Safe where
  positive i hlive := h.positive i _ ((h.stands i).id_of_live hlive)
  distinct i j hi hj heq := by
    have hid := (h.stands i).id_of_live hi
    rw [heq] at hid
    exact b.distinct i j _ hid ((h.stands j).id_of_live hj)
  queuedOnce i hqueued := by
    rw [h.queue]
    apply List.count_eq_one_of_mem b.nodup
    rw [b.mem_queue, (h.stands i).of_queued hqueued]
    rfl
  window i hi := by
    rw [h.queue] at hi ⊢
    refine ⟨List.count_eq_one_of_mem b.nodup hi, ?_, ?_⟩
    · rw [b.mem_queue] at hi
      have hstands := h.stands i
      cases hplace : b.place i with
      | queued id c =>
          rw [hplace] at hstands
          cases c with
          | false => exact .inl hstands.2.1
          | true => exact .inr hstands.2
      | free => rw [hplace] at hi; cases hi
      | taken id w c => rw [hplace] at hi; cases hi
      | settled id c => rw [hplace] at hi; cases hi
    · intro w handle hjob
      obtain ⟨c, hc⟩ := (h.jobs w i handle).mp hjob
      rw [b.mem_queue, hc] at hi
      cases hi
  running i hrunning := by
    obtain ⟨w, hplace⟩ := (h.stands i).of_running hrunning
    have hjob := (h.jobs w i _).mpr ⟨false, hplace⟩
    exact ⟨w, hjob, fun w' hw' => h.sole hjob hw'⟩
  jobs w i handle hjob := by
    obtain ⟨c, hplace⟩ := (h.jobs w i handle).mp hjob
    have hstands := h.stands i
    rw [hplace] at hstands
    refine ⟨hstands.1, ?_, fun w' handle' hjob' => h.sole hjob hjob'⟩
    cases c with
    | false => exact .inl hstands.2.1
    | true => exact .inr hstands.2.1

/-- `_start` and `_stream_start` return, and return 0 only when every slot is taken or a resource fails. -/
theorem Represents.start_returns (h : Represents s b) (hready : s.client = .ready) (method url headers body : Bytes)
    (allocated : Bool) (threads : Nat) :
    ∀ a ∈ [Act.start method url headers body allocated threads, Act.streamStart method url headers body allocated threads],
      ∃ s' o, Async.step s a = some (s', o) ∧
        (o = .returned 0 → allocated = false ∨ s.workerCount + threads < 4 ∨ ∀ i, (s.tasks i).state ≠ .free) := by
  have hmode : ∀ mode : Int, ∃ id s', asyncStartImpl s method url headers body mode allocated threads = some (id, s') ∧
      ((if id = 0 then Outcome.returned 0 else .started id) = .returned 0 →
        allocated = false ∨ s.workerCount + threads < 4 ∨ ∀ i, (s.tasks i).state ≠ .free) := by
    intro mode
    obtain ⟨id, s', -, hstart, -, hzero⟩ := h.start method url headers body mode allocated threads
    refine ⟨id, s', hstart, fun ho => hzero ?_⟩
    by_cases hid : id = 0
    · exact hid
    · rw [if_neg hid] at ho
      cases ho
  intro a ha
  rw [List.mem_cons, List.mem_singleton] at ha
  rcases ha with rfl | rfl
  · obtain ⟨id, s', hstart, hzero⟩ := hmode 0
    refine ⟨s', _, ?_, hzero⟩
    simp only [Async.step, Act.worker?, hready, Async.clientStep, hstart]
    rfl
  · obtain ⟨id, s', hstart, hzero⟩ := hmode 1
    refine ⟨s', _, ?_, hzero⟩
    simp only [Async.step, Act.worker?, hready, Async.clientStep, hstart]
    rfl

/-- **The task table.** After any interleaving of the client's calls and the workers' pieces the table is safe; a
    worker keeps its slot, with the request it took, until it finishes; what its request returns becomes the answer of
    that handle, and the answer stays until the handle is released; and a start fails only on a full table. -/
theorem asyncTable_invariant {trace : Trace} (h : Runs .initial trace s) : s.Safe ∧
    (∀ w i handle, (s.workers w).job = some (i, handle) → ∀ later s', Runs s later s' →
      (∀ x ∈ later, ∀ response length status, x.1 ≠ .finish w response length status) →
        (s'.workers w).job = some (i, handle) ∧ (s'.tasks i).request = (s.tasks i).request) ∧
    (∀ w slot handle response length status s' o, s.workers w = .running slot handle →
      (s.tasks slot).state = .running → step s (.finish w response length status) = some (s', o) →
        vntNativeHttpAsyncPoll s' handle = 1 ∧ vntNativeHttpAsyncStatus s' handle = status ∧
          vntNativeHttpAsyncResult s' handle =
            response.elim (some [], 0) fun response => (some (asyncStrdup response), length)) ∧
    (∀ id, vntNativeHttpAsyncPoll s id = 1 → ∀ later s', Runs s later s' →
      (∀ x ∈ later, x ≠ (.release id, .returned 1)) →
        vntNativeHttpAsyncPoll s' id = 1 ∧ vntNativeHttpAsyncResult s' id = vntNativeHttpAsyncResult s id ∧
          vntNativeHttpAsyncStatus s' id = vntNativeHttpAsyncStatus s id) ∧
    (s.client = .ready → ∀ method url headers body allocated threads,
      ∀ a ∈ [Act.start method url headers body allocated threads, Act.streamStart method url headers body allocated threads],
        ∃ s' o, step s a = some (s', o) ∧
          (o = .returned 0 → allocated = false ∨ s.workerCount + threads < 4 ∨ ∀ i, (s.tasks i).state ≠ .free)) := by
  obtain ⟨b, hb⟩ := h.represents Represents.initial
  refine ⟨hb.safe, ?_, ?_, ?_, ?_⟩
  · exact fun w i handle hjob later s' hrun hfinish => hrun.job_kept hb hjob hfinish
  · exact fun w slot handle response length status s' o hworker hrunning hstep =>
      hb.finish_answer hworker hrunning response length status hstep
  · exact fun id hpoll later s' hrun hrelease => hrun.answer_kept hb hpoll hrelease
  · exact fun hready method url headers body allocated threads => hb.start_returns hready _ _ _ _ _ _

/-- A first start, and the pop of a worker. -/
theorem firstStart_safe : ∃ s, Runs .initial [(.start [71] [104] [] [] true 4, .started 1), (.pop 2, .quiet)] s ∧
    s.Safe ∧ (s.workers 2).job = some (0, 1) := by
  obtain ⟨s₁, h₁⟩ : ∃ s₁, step .initial (.start [71] [104] [] [] true 4) = some (s₁, .started 1) := ⟨_, rfl⟩
  have hpop : ∃ s₂, step s₁ (.pop 2) = some (s₂, .quiet) ∧ (s₂.workers 2).job = some (0, 1) := by
    cases h₁
    exact ⟨_, rfl, rfl⟩
  obtain ⟨s₂, h₂, hjob⟩ := hpop
  have hrun := (Runs.nil.snoc h₁).snoc h₂
  exact ⟨s₂, hrun, (asyncTable_invariant hrun).1, hjob⟩

end Vnt.Async
