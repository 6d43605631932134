import Vnt.Async.Table
import Vnt.Lib.TaskBoard
import Mathlib.Data.Fintype.Card

/-!
# `Vnt.Async.Represents`: the table is a task board

`Represents s b` reads a state of the table as a board: the flags of a task give its place, the queue window is the
board's queue, and the workers have exactly the tasks the board says they have. Each locked piece is one of the board's
changes, or none, so every reachable state represents a board.
-/

namespace Vnt.Async

abbrev Board := TaskBoard Slot (Fin 4) Int

/-- The slot a worker has, and the handle it had when the worker took it. -/
def Worker.job : Worker → Option (Slot × Int)
  | .popping => none
  | .running slot handle | .pushing slot handle _ => some (slot, handle)

/-- The slot a sleeping client holds, and the handle it asked for. -/
def Client.held : Client → Option (Slot × Int)
  | .ready => none
  | .waiting slot handle | .reading slot handle _ => some (slot, handle)

/-- The flags of a task in each place. -/
def Stands (p : Place (Fin 4) Int) (t : Task) : Prop :=
  match p with
  | .free => t.state = .free
  | .queued id cancelled => t.id = id ∧ t.state = (if cancelled then .cancelled else .queued) ∧ t.workerFinished = false
  | .taken id _ cancelled =>
      t.id = id ∧ t.state = (if cancelled then .cancelled else .running) ∧ t.workerFinished = false
  | .settled id cancelled => t.id = id ∧ t.state = (if cancelled then .cancelled else .done) ∧ t.workerFinished = true

structure Represents (s : AsyncState) (b : Board) : Prop where
  stands : ∀ i, Stands (b.place i) (s.tasks i)
  queue : s.queue.contents = b.queue
  tail : s.queueTail = s.queue.tail
  jobs : ∀ w i handle, (s.workers w).job = some (i, handle) ↔ ∃ cancelled, b.place i = .taken handle w cancelled
  positive : ∀ i id, (b.place i).id? = some id → 0 < id
  handle : 0 < s.nextHandle ∧ s.nextHandle < 2 ^ 31
  held : ∀ i handle, s.client.held = some (i, handle) → (b.place i).id? = some handle ∧ (b.place i).cancelled = false

variable {s s' : AsyncState} {b : Board} {i slot : Slot} {w : Fin 4} {id handle : Int} {t : Task}
  {p : Place (Fin 4) Int}

/-! ## Reading a place off the flags -/

theorem Stands.congr (h : Stands p t) {t' : Task} (hid : t'.id = t.id) (hstate : t'.state = t.state)
    (hfinished : t'.workerFinished = t.workerFinished) : Stands p t' := by
  cases p with
  | free => exact hstate.trans h
  | queued id c => exact ⟨hid.trans h.1, hstate.trans h.2.1, hfinished.trans h.2.2⟩
  | taken id w c => exact ⟨hid.trans h.1, hstate.trans h.2.1, hfinished.trans h.2.2⟩
  | settled id c => exact ⟨hid.trans h.1, hstate.trans h.2.1, hfinished.trans h.2.2⟩

theorem Stands.id_of_live (h : Stands p t) (hlive : t.state ≠ .free) : p.id? = some t.id := by
  cases p with
  | free => exact absurd h hlive
  | queued id c => exact congrArg some h.1.symm
  | taken id w c => exact congrArg some h.1.symm
  | settled id c => exact congrArg some h.1.symm

theorem Stands.live_of_id (h : Stands p t) (hid : p.id? = some id) : t.state ≠ .free ∧ t.id = id := by
  cases p with
  | free => cases hid
  | queued id' c =>
      cases hid
      refine ⟨?_, h.1⟩
      rw [h.2.1]
      cases c <;> decide
  | taken id' w c =>
      cases hid
      refine ⟨?_, h.1⟩
      rw [h.2.1]
      cases c <;> decide
  | settled id' c =>
      cases hid
      refine ⟨?_, h.1⟩
      rw [h.2.1]
      cases c <;> decide

theorem Stands.of_free (h : Stands p t) (hstate : t.state = .free) : p = .free := by
  cases p with
  | free => rfl
  | queued id c => exact absurd hstate (h.live_of_id rfl).1
  | taken id w c => exact absurd hstate (h.live_of_id rfl).1
  | settled id c => exact absurd hstate (h.live_of_id rfl).1

theorem Stands.of_queued (h : Stands p t) (hstate : t.state = .queued) : p = .queued t.id false := by
  cases p with
  | free => cases hstate.symm.trans h
  | queued id c =>
      obtain ⟨rfl, hs, -⟩ := h
      cases c with
      | false => rfl
      | true => cases hstate.symm.trans hs
  | taken id w c => cases c <;> cases hstate.symm.trans h.2.1
  | settled id c => cases c <;> cases hstate.symm.trans h.2.1

theorem Stands.of_running (h : Stands p t) (hstate : t.state = .running) : ∃ w, p = .taken t.id w false := by
  cases p with
  | free => cases hstate.symm.trans h
  | queued id c => cases c <;> cases hstate.symm.trans h.2.1
  | taken id w c =>
      obtain ⟨rfl, hs, -⟩ := h
      cases c with
      | false => exact ⟨w, rfl⟩
      | true => cases hstate.symm.trans hs
  | settled id c => cases c <;> cases hstate.symm.trans h.2.1

theorem Stands.of_done (h : Stands p t) (hstate : t.state = .done) : p = .settled t.id false := by
  cases p with
  | free => cases hstate.symm.trans h
  | queued id c => cases c <;> cases hstate.symm.trans h.2.1
  | taken id w c => cases c <;> cases hstate.symm.trans h.2.1
  | settled id c =>
      obtain ⟨rfl, hs, -⟩ := h
      cases c with
      | false => rfl
      | true => cases hstate.symm.trans hs

theorem Stands.of_cancelled (h : Stands p t) (hstate : t.state = .cancelled) : p.cancelled = true := by
  cases p with
  | free => cases hstate.symm.trans h
  | queued id c =>
      cases c with
      | false => cases hstate.symm.trans h.2.1
      | true => rfl
  | taken id w c =>
      cases c with
      | false => cases hstate.symm.trans h.2.1
      | true => rfl
  | settled id c =>
      cases c with
      | false => cases hstate.symm.trans h.2.1
      | true => rfl

theorem Stands.of_finished (h : Stands p t) (hlive : t.state ≠ .free) (hfinished : t.workerFinished = true) :
    ∃ cancelled, p = .settled t.id cancelled := by
  cases p with
  | free => exact absurd h hlive
  | queued id c => cases hfinished.symm.trans h.2.2
  | taken id w c => cases hfinished.symm.trans h.2.2
  | settled id c => exact ⟨c, by rw [h.1]⟩

/-! ## Looking up a handle -/

theorem asyncFindLocked_some (h : s.asyncFindLocked id = some slot) :
    (s.tasks slot).state ≠ .free ∧ (s.tasks slot).id = id := by
  unfold AsyncState.asyncFindLocked at h
  split at h
  · cases h
  · have hfound := List.find?_some h
    exact of_decide_eq_true hfound

theorem asyncFindLocked_of_live (h : Represents s b) (hlive : (s.tasks i).state ≠ .free) :
    s.asyncFindLocked (s.tasks i).id = some i := by
  have hid := (h.stands i).id_of_live hlive
  have hpos := h.positive i _ hid
  cases hfind : s.asyncFindLocked (s.tasks i).id with
  | none =>
      unfold AsyncState.asyncFindLocked at hfind
      rw [if_neg (by omega), List.find?_eq_none] at hfind
      exact absurd (decide_eq_true ⟨hlive, rfl⟩) (hfind i (List.mem_finRange i))
  | some j =>
      obtain ⟨hj, heq⟩ := asyncFindLocked_some hfind
      have hjd := (h.stands j).id_of_live hj
      rw [heq] at hjd
      rw [b.distinct j i _ hjd hid]

/-! ## The kinds of change -/

/-- Nothing moves. -/
theorem Represents.same (h : Represents s b)
    (htasks : ∀ i, (s'.tasks i).id = (s.tasks i).id ∧ (s'.tasks i).state = (s.tasks i).state ∧
      (s'.tasks i).workerFinished = (s.tasks i).workerFinished)
    (hqueue : s'.queue = s.queue) (htail : s'.queueTail = s.queueTail) (hnext : s'.nextHandle = s.nextHandle)
    (hjobs : ∀ w, (s'.workers w).job = (s.workers w).job)
    (hheld : ∀ i handle, s'.client.held = some (i, handle) →
      (b.place i).id? = some handle ∧ (b.place i).cancelled = false) : Represents s' b where
  stands i := (h.stands i).congr (htasks i).1 (htasks i).2.1 (htasks i).2.2
  queue := by rw [hqueue, h.queue]
  tail := by rw [hqueue, htail, h.tail]
  jobs w i handle := by rw [hjobs, h.jobs]
  positive := h.positive
  handle := by rw [hnext]; exact h.handle
  held := hheld

/-- One slot moves to the place `p`, and the board's queue with it. -/
theorem Represents.moved (h : Represents s b) {b' : Board} (hplace : b'.place = Function.update b.place i p)
    (htasks : s'.tasks = Function.update s.tasks i t) (hstands : Stands p t)
    (hqueue : s'.queue.contents = b'.queue) (htail : s'.queueTail = s'.queue.tail)
    (hnext : 0 < s'.nextHandle ∧ s'.nextHandle < 2 ^ 31)
    (hjob : ∀ w handle, (s'.workers w).job = some (i, handle) ↔ ∃ cancelled, p = .taken handle w cancelled)
    (hjobs : ∀ w j handle, j ≠ i → ((s'.workers w).job = some (j, handle) ↔ (s.workers w).job = some (j, handle)))
    (hpositive : ∀ id, p.id? = some id → 0 < id)
    (hheld : ∀ handle, s.client.held = some (i, handle) → p.id? = some handle ∧ p.cancelled = false)
    (hclient : s'.client = s.client) : Represents s' b' where
  stands j := by
    rw [hplace, htasks]
    by_cases hj : j = i
    · subst hj
      rw [Function.update_self, Function.update_self]
      exact hstands
    · rw [Function.update_of_ne hj, Function.update_of_ne hj]
      exact h.stands j
  queue := hqueue
  tail := htail
  jobs w j handle := by
    rw [hplace]
    by_cases hj : j = i
    · subst hj
      rw [Function.update_self]
      exact hjob w handle
    · rw [Function.update_of_ne hj, hjobs w j handle hj]
      exact h.jobs w j handle
  positive j id hid := by
    rw [hplace] at hid
    by_cases hj : j = i
    · subst hj
      rw [Function.update_self] at hid
      exact hpositive id hid
    · rw [Function.update_of_ne hj] at hid
      exact h.positive j id hid
  handle := hnext
  held j handle hj := by
    rw [hclient] at hj
    rw [hplace]
    by_cases hji : j = i
    · subst hji
      rw [Function.update_self]
      exact hheld handle hj
    · rw [Function.update_of_ne hji]
      exact h.held j handle hj

/-- A slot whose task changes its flags only: no worker gains or loses it. -/
theorem Represents.flagged (h : Represents s b) (hqueued : p.isQueued = (b.place i).isQueued)
    (hid : ∀ id, p.id? = some id → (b.place i).id? = some id) (hstands : Stands p t)
    (htaken : ∀ w handle, (∃ cancelled, b.place i = .taken handle w cancelled) ↔
      ∃ cancelled, p = .taken handle w cancelled)
    (hheld : ∀ handle, s.client.held = some (i, handle) → p.id? = some handle ∧ p.cancelled = false) :
    Represents (s.setTask i t) (b.set i p hqueued hid) := by
  refine h.moved (i := i) (p := p) (t := t) rfl rfl hstands h.queue h.tail h.handle ?_ ?_ ?_ hheld rfl
  · intro w handle
    exact (h.jobs w i handle).trans (htaken w handle)
  · exact fun w j handle hj => Iff.rfl
  · exact fun id hp => h.positive i id (hid id hp)

/-! ## The client's calls -/

theorem Represents.cancel (h : Represents s b) (hready : s.client = .ready) (id : Int) :
    ∃ b', Represents (vntNativeHttpAsyncCancel s id).2.1 b' := by
  unfold vntNativeHttpAsyncCancel
  split
  · exact ⟨b, h⟩
  · rename_i slot hfind
    have hslot := h.stands slot
    simp only
    split
    · rename_i hstate
      have hplace := hslot.of_queued hstate
      rw [hplace] at hslot
      refine ⟨_, h.flagged (p := .queued (s.tasks slot).id true) ?_ ?_ ⟨rfl, rfl, hslot.2.2⟩ ?_ ?_⟩
      · rw [hplace]; rfl
      · rw [hplace]; exact fun _ hid => hid
      · rw [hplace]; exact fun w handle => ⟨nofun, nofun⟩
      · rw [hready]; exact nofun
    · split
      · rename_i hstate
        obtain ⟨w, hplace⟩ := hslot.of_running hstate
        rw [hplace] at hslot
        refine ⟨_, h.flagged (p := .taken (s.tasks slot).id w true) ?_ ?_ ⟨rfl, rfl, hslot.2.2⟩ ?_ ?_⟩
        · rw [hplace]; rfl
        · rw [hplace]; exact fun _ hid => hid
        · rw [hplace]
          intro w' handle
          constructor
          · rintro ⟨c, hc⟩
            cases hc
            exact ⟨true, rfl⟩
          · rintro ⟨c, hc⟩
            cases hc
            exact ⟨false, rfl⟩
        · rw [hready]; exact nofun
      · exact ⟨b, h⟩

/-- A settled task is cleared. -/
theorem Represents.clear (h : Represents s b) (hready : s.client = .ready) {cancelled : Bool}
    (hplace : b.place i = .settled id cancelled) : ∃ b', Represents (s.setTask i Task.zero) b' := by
  refine ⟨_, h.flagged (p := .free) ?_ nofun rfl ?_ ?_⟩
  · rw [hplace]; rfl
  · rw [hplace]; exact fun w handle => ⟨nofun, nofun⟩
  · rw [hready]; exact nofun

/-- A task changes fields that are no flags of its place. -/
theorem Represents.touched (h : Represents s b) {t' : Task} (hid : t'.id = (s.tasks i).id)
    (hstate : t'.state = (s.tasks i).state) (hfinished : t'.workerFinished = (s.tasks i).workerFinished) :
    Represents (s.setTask i t') b := by
  refine h.same ?_ rfl rfl rfl (fun _ => rfl) h.held
  intro j
  show (Function.update s.tasks i t' j).id = _ ∧ (Function.update s.tasks i t' j).state = _ ∧
    (Function.update s.tasks i t' j).workerFinished = _
  by_cases hj : j = i
  · subst hj
    rw [Function.update_self]
    exact ⟨hid, hstate, hfinished⟩
  · rw [Function.update_of_ne hj]
    exact ⟨rfl, rfl, rfl⟩

theorem Represents.release (h : Represents s b) (hready : s.client = .ready) (id : Int) :
    ∃ b', Represents (vntNativeHttpAsyncRelease s id).2 b' := by
  unfold vntNativeHttpAsyncRelease
  split
  · exact ⟨b, h⟩
  · rename_i slot hfind
    have hlive := (asyncFindLocked_some hfind).1
    simp only
    split
    · rename_i hdone
      exact h.clear hready ((h.stands slot).of_done hdone.1)
    · split
      · by_cases hfinished : (s.tasks slot).workerFinished = true
        · rw [if_pos hfinished]
          obtain ⟨c, hplace⟩ := (h.stands slot).of_finished hlive hfinished
          exact h.clear hready hplace
        · rw [if_neg hfinished]
          exact ⟨b, h.touched rfl rfl rfl⟩
      · exact ⟨b, h⟩

theorem Represents.streamTake (h : Represents s b) (slot : Slot) (maximum : Nat) :
    Represents (streamTake s slot maximum).2 b :=
  h.touched rfl rfl rfl

/-- A client that goes to sleep over a pending task. -/
theorem Represents.sleep (h : Represents s b) {client : Client} (hheld : client.held = some (slot, id))
    (hfind : s.asyncFindLocked id = some slot) (hpending : (s.tasks slot).state.pending = true) :
    Represents { s with client := client } b := by
  refine h.same (fun _ => ⟨rfl, rfl, rfl⟩) rfl rfl rfl (fun _ => rfl) ?_
  intro i handle hi
  cases hheld.symm.trans hi
  obtain ⟨hlive, hid⟩ := asyncFindLocked_some hfind
  refine ⟨hid ▸ (h.stands slot).id_of_live hlive, ?_⟩
  rcases of_decide_eq_true hpending with hstate | hstate
  · rw [(h.stands slot).of_queued hstate]; rfl
  · obtain ⟨w, hplace⟩ := (h.stands slot).of_running hstate
    rw [hplace]; rfl

theorem Represents.awake (h : Represents s b) : Represents { s with client := .ready } b :=
  h.same (fun _ => ⟨rfl, rfl, rfl⟩) rfl rfl rfl (fun _ => rfl) nofun

/-! ## Start -/

theorem advanceHandle_eq {next : Int} (h : 0 < next ∧ next < 2 ^ 31) :
    advanceHandle next = if next = 2 ^ 31 - 1 then 1 else next + 1 := by
  unfold advanceHandle
  split
  · rename_i hlast
    subst hlast
    decide
  · have hmod : Int.bmod (next + 1) (2 ^ 32) = next + 1 := by
      apply Int.bmod_eq_of_le <;> omega
    simp only [hmod]
    rw [if_neg (by omega)]

theorem advanceHandle_range {next : Int} (h : 0 < next ∧ next < 2 ^ 31) :
    0 < advanceHandle next ∧ advanceHandle next < 2 ^ 31 := by
  rw [advanceHandle_eq h]
  split <;> omega

/-- The handle `k` turns after `next`. -/
def handleAfter (next : Int) (k : Nat) : Int := (next - 1 + k) % (2 ^ 31 - 1) + 1

theorem handleAfter_zero {next : Int} (h : 0 < next ∧ next < 2 ^ 31) : handleAfter next 0 = next := by
  unfold handleAfter
  omega

theorem handleAfter_advance {next : Int} (h : 0 < next ∧ next < 2 ^ 31) (k : Nat) :
    handleAfter (advanceHandle next) k = handleAfter next (k + 1) := by
  unfold handleAfter
  rw [advanceHandle_eq h]
  split
  · rename_i hlast
    subst hlast
    push_cast
    omega
  · push_cast
    omega

/-- A handle that was picked is new. -/
theorem pickHandle_some {tasks : Slot → Task} {fuel : Nat} : ∀ {next candidate after : Int},
    (0 < next ∧ next < 2 ^ 31) → pickHandle tasks fuel next = some (candidate, after) →
    0 < candidate ∧ (∀ i, (tasks i).state ≠ .free → (tasks i).id ≠ candidate) ∧ (0 < after ∧ after < 2 ^ 31) := by
  induction fuel with
  | zero => intro next candidate after hnext h; cases h
  | succ fuel ih =>
      intro next candidate after hnext h
      unfold pickHandle at h
      simp only at h
      rw [if_neg (by omega)] at h
      split at h
      · exact ih (advanceHandle_range hnext) h
      · rename_i hfresh
        cases h
        refine ⟨hnext.1, fun i hlive hid => hfresh ?_, advanceHandle_range hnext⟩
        exact List.any_eq_true.mpr ⟨i, List.mem_finRange i, decide_eq_true ⟨hlive, hid⟩⟩

/-- Each turn of a search that fails meets a live handle. -/
theorem pickHandle_none {tasks : Slot → Task} {fuel : Nat} : ∀ {next : Int}, (0 < next ∧ next < 2 ^ 31) →
    pickHandle tasks fuel next = none → ∀ k < fuel, ∃ i, (tasks i).id = handleAfter next k := by
  induction fuel with
  | zero => intro next _ _ k hk; omega
  | succ fuel ih =>
      intro next hnext h k hk
      unfold pickHandle at h
      simp only at h
      rw [if_neg (by omega)] at h
      split at h
      · rename_i hlive
        cases k with
        | zero =>
            obtain ⟨i, -, hi⟩ := List.any_eq_true.mp hlive
            exact ⟨i, by rw [handleAfter_zero hnext]; exact (of_decide_eq_true hi).2⟩
        | succ k =>
            rw [← handleAfter_advance hnext]
            exact ih (advanceHandle_range hnext) h k (by omega)
      · cases h

/-- **The search for a handle ends**: 65 handles in a row are different and there are 64 tasks. -/
theorem pickHandle_total (tasks : Slot → Task) {next : Int} (h : 0 < next ∧ next < 2 ^ 31) :
    ∃ candidate after, pickHandle tasks 65 next = some (candidate, after) := by
  cases hpick : pickHandle tasks 65 next with
  | some r => exact ⟨r.1, r.2, rfl⟩
  | none =>
      have hmeets := pickHandle_none h hpick
      choose f hf using fun k : Fin 65 => hmeets k.val k.isLt
      have hinj : Function.Injective f := by
        intro k k' hk
        have heq : handleAfter next k = handleAfter next k' := by rw [← hf k, ← hf k', hk]
        apply Fin.ext
        unfold handleAfter at heq
        have hk := k.isLt
        have hk' := k'.isLt
        omega
      have hcard := Fintype.card_le_of_injective f hinj
      simp at hcard

/-- A free slot is zeroed. -/
theorem Represents.zeroed (h : Represents s b) (hplace : b.place slot = .free) :
    Represents (s.setTask slot Task.zero) b := by
  refine h.moved (i := slot) (p := .free) ?_ rfl rfl h.queue h.tail h.handle ?_ (fun _ _ _ _ => Iff.rfl) nofun ?_ rfl
  · rw [← hplace, Function.update_eq_self]
  · rw [← hplace]
    exact fun w handle => h.jobs w slot handle
  · rw [← hplace]
    exact fun handle => h.held slot handle

/-- A new task in a free slot. -/
theorem Represents.enqueued (h : Represents s b) {next : Int} {t : Task} (hcount : s.queue.count < 64)
    (hplace : b.place slot = .free) (hstands : Stands (.queued id false) t) (hpos : 0 < id)
    (hfresh : ∀ j ≠ slot, (b.place j).id? ≠ some id) (hnext : 0 < next ∧ next < 2 ^ 31) :
    ∃ b', Represents (enqueue s slot t next hcount) b' := by
  have hqueued : (b.place slot).isQueued = false := by rw [hplace]; rfl
  refine ⟨b.push slot id hqueued hfresh, h.moved (i := slot) rfl rfl hstands ?_ ?_ hnext ?_ ?_ ?_ ?_ rfl⟩
  · show (s.queue.fill (Function.update s.queue.cells s.queueTail slot) 1 hcount).contents = b.queue ++ [slot]
    rw [h.tail, ← h.queue]
    exact s.queue.contents_push slot hcount
  · show (s.queueTail + 1) % 64 = (s.queue.head + (s.queue.count + 1)) % 64
    rw [h.tail, Ring.tail, Nat.mod_add_mod, Nat.add_assoc]
  · intro w handle
    have hjob := h.jobs w slot handle
    rw [hplace] at hjob
    constructor
    · intro hw
      obtain ⟨_, hno⟩ := hjob.mp hw
      cases hno
    · rintro ⟨_, hno⟩
      cases hno
  · exact fun w j handle _ => Iff.rfl
  · rintro id hid
    cases hid
    exact hpos
  · intro handle hheld
    have hid := (h.held slot handle hheld).1
    rw [hplace] at hid
    cases hid

/-- **`async_start_impl`** returns; it returns 0 only when its resources fail or every slot is taken, and a handle
    otherwise. -/
theorem Represents.start (h : Represents s b) (method url headers body : Bytes) (mode : Int) (allocated : Bool)
    (threads : Nat) : ∃ id s' b',
    asyncStartImpl s method url headers body mode allocated threads = some (id, s') ∧ Represents s' b' ∧
      (id = 0 → allocated = false ∨ s.workerCount + threads < 4 ∨ ∀ i, (s.tasks i).state ≠ .free) := by
  unfold asyncStartImpl
  by_cases hallocated : allocated = false
  · rw [if_pos hallocated]
    exact ⟨0, s, b, rfl, h, fun _ => .inl hallocated⟩
  rw [if_neg hallocated]
  obtain ⟨s₁, hs₁⟩ : ∃ s₁, (asyncEnsureWorkersLocked s threads).2 = s₁ := ⟨_, rfl⟩
  have h₁ : Represents s₁ b := by
    rw [← hs₁]
    exact h.same (fun _ => ⟨rfl, rfl, rfl⟩) rfl rfl rfl (fun _ => rfl) h.held
  have htasks : s₁.tasks = s.tasks := by rw [← hs₁]; rfl
  simp only [hs₁]
  by_cases hfull : (asyncEnsureWorkersLocked s threads).1 = false ∨ s₁.queue.count = 64
  · rw [dif_pos hfull]
    refine ⟨0, s₁, b, rfl, h₁, fun _ => .inr ?_⟩
    rcases hfull with hready | hcount
    · left
      have hlt := of_decide_eq_false hready
      omega
    · -- 64 different slots wait
      right
      intro i hi
      rw [← htasks] at hi
      have hlen : b.queue.length = 64 := by rw [← h₁.queue, Ring.length_contents, hcount]
      have hall : b.queue.toFinset = Finset.univ := by
        rw [← Finset.card_eq_iff_eq_univ, List.toFinset_card_of_nodup b.nodup, hlen]
        rfl
      have hmem : i ∈ b.queue := List.mem_toFinset.mp (hall ▸ Finset.mem_univ i)
      rw [b.mem_queue, (h₁.stands i).of_free hi] at hmem
      cases hmem
  rw [dif_neg hfull]
  cases hfind : (List.finRange 64).find? fun i => (s₁.tasks i).state = .free with
  | none =>
      refine ⟨0, s₁, b, by simp only, h₁, fun _ => .inr (.inr fun i hi => ?_)⟩
      rw [List.find?_eq_none] at hfind
      exact hfind i (List.mem_finRange i) (decide_eq_true (htasks ▸ hi))
  | some slot =>
      have hslot : (s₁.tasks slot).state = .free := by
        have hfound := List.find?_some hfind
        exact of_decide_eq_true hfound
      have hplace := (h₁.stands slot).of_free hslot
      obtain ⟨candidate, after, hpick⟩ := pickHandle_total (s₁.setTask slot Task.zero).tasks h₁.handle
      obtain ⟨hpos, hfresh, hafter⟩ := pickHandle_some h₁.handle hpick
      have hzero := h₁.zeroed hplace
      have hnew : ∀ j ≠ slot, (b.place j).id? ≠ some candidate := by
        intro j hj hid
        obtain ⟨hlive, hjd⟩ := (hzero.stands j).live_of_id hid
        exact hfresh j hlive hjd
      obtain ⟨b', hb'⟩ := hzero.enqueued (t := { Task.zero with
        id := candidate, method := method, url := url, headers := headers, body := body, mode := mode,
        state := .queued }) (Nat.lt_of_le_of_ne s₁.queue.count_le fun he => hfull (.inr he)) hplace
        ⟨rfl, rfl, rfl⟩ hpos hnew hafter
      have hnext : (s₁.setTask slot Task.zero).nextHandle = s₁.nextHandle := rfl
      simp only [hnext, hpick]
      exact ⟨candidate, _, b', rfl, hb', fun hzero => absurd hzero (by omega)⟩

/-! ## The worker's pieces -/

theorem tail_drop (s : AsyncState) (h : s.queueTail = s.queue.tail) (hcount : s.queue.count ≠ 0) :
    s.queueTail = (s.queue.drop 1).tail := by
  show s.queueTail = ((s.queue.head + 1) % 64 + (s.queue.count - 1)) % 64
  rw [h, Nat.mod_add_mod, Ring.tail]
  congr 1
  omega

/-- A worker at its pop gets the job `(slot, handle)`, and nobody else's job changes. -/
theorem job_setWorker {worker : Worker} (w' : Fin 4) :
    ((s.setWorker w worker).workers w').job = if w' = w then worker.job else (s.workers w').job := by
  show (Function.update s.workers w worker w').job = _
  by_cases hw : w' = w
  · subst hw
    rw [Function.update_self, if_pos rfl]
  · rw [Function.update_of_ne hw, if_neg hw]

theorem Represents.pop (h : Represents s b) (hworker : s.workers w = .popping) (hpop : asyncWorkerPop s w = some s') :
    ∃ b', Represents s' b' := by
  unfold asyncWorkerPop at hpop
  split at hpop
  · cases hpop
  rename_i hcount
  obtain ⟨slot, hslot⟩ : ∃ slot, s.queue.cells s.queue.head = slot := ⟨_, rfl⟩
  simp only [hslot] at hpop
  have hqueue : b.queue = slot :: (s.queue.drop 1).contents := by
    rw [← h.queue, s.queue.contents_cons hcount, hslot]
  have hqueued : (b.place slot).isQueued = true := by
    rw [← b.mem_queue, hqueue]
    exact List.mem_cons_self
  have hstands := h.stands slot
  cases hplace : b.place slot with
  | free => rw [hplace] at hqueued; cases hqueued
  | taken id w c => rw [hplace] at hqueued; cases hqueued
  | settled id c => rw [hplace] at hqueued; cases hqueued
  | queued id c =>
      rw [hplace] at hstands
      have hnobody : ∀ w handle, (s.workers w).job ≠ some (slot, handle) := by
        intro w handle hjob
        obtain ⟨c', hc'⟩ := (h.jobs w slot handle).mp hjob
        cases hplace.symm.trans hc'
      have hpos := h.positive slot id (by rw [hplace]; rfl)
      cases c with
      | true =>
          have hstate : (s.tasks slot).state = .cancelled := hstands.2.1
          rw [if_pos hstate] at hpop
          cases hpop
          refine ⟨b.pop slot .free hqueue rfl nofun, h.moved (i := slot) rfl rfl rfl rfl (tail_drop s h.tail hcount)
            h.handle ?_ (fun _ _ _ _ => Iff.rfl) nofun ?_ rfl⟩
          · exact fun w handle => ⟨fun hjob => absurd hjob (hnobody w handle), nofun⟩
          · intro handle hheld
            have hkept := (h.held slot handle hheld).2
            rw [hplace] at hkept
            cases hkept
      | false =>
          have hstate : (s.tasks slot).state = .queued := hstands.2.1
          rw [if_neg (by rw [hstate]; decide), if_neg (by rw [hstate]; decide)] at hpop
          cases hpop
          refine ⟨b.pop slot (.taken id w false) hqueue rfl ?_, h.moved (i := slot) rfl rfl ⟨hstands.1, rfl, hstands.2.2⟩
            rfl (tail_drop s h.tail hcount) h.handle ?_ ?_ ?_ ?_ rfl⟩
          · rw [hplace]; exact fun _ hid => hid
          · intro w' handle
            rw [job_setWorker]
            by_cases hw : w' = w
            · subst hw
              rw [if_pos rfl, hstands.1]
              constructor
              · intro hjob
                cases hjob
                exact ⟨false, rfl⟩
              · rintro ⟨c, hc⟩
                cases hc
                rfl
            · rw [if_neg hw]
              constructor
              · exact fun hjob => absurd hjob (hnobody w' handle)
              · rintro ⟨c, hc⟩
                cases hc
                exact absurd rfl hw
          · intro w' j handle hj
            rw [job_setWorker]
            by_cases hw : w' = w
            · subst hw
              rw [if_pos rfl, hworker]
              constructor
              · intro hjob
                cases hjob
                exact absurd rfl hj
              · exact nofun
            · rw [if_neg hw]
              exact Iff.rfl
          · intro id' hid'
            cases hid'
            exact hpos
          · intro handle hheld
            have hkept := h.held slot handle hheld
            rw [hplace] at hkept
            exact ⟨hkept.1, rfl⟩

/-- A worker that has a task has it alone. -/
theorem Represents.sole (h : Represents s b) {w' : Fin 4} {handle' : Int} (hw : (s.workers w).job = some (i, handle))
    (hw' : (s.workers w').job = some (i, handle')) : w' = w := by
  obtain ⟨c, hc⟩ := (h.jobs w i handle).mp hw
  obtain ⟨c', hc'⟩ := (h.jobs w' i handle').mp hw'
  cases hc.symm.trans hc'
  rfl

/-- A worker gives up its slot, whose task is then no worker's. -/
theorem Represents.settled (h : Represents s b) (hworker : (s.workers w).job = some (slot, handle))
    (hqueued : p.isQueued = false) (hid : ∀ id, p.id? = some id → (b.place slot).id? = some id) (hstands : Stands p t)
    (htaken : ∀ handle w cancelled, p ≠ .taken handle w cancelled)
    (hheld : ∀ handle, s.client.held = some (slot, handle) → p.id? = some handle ∧ p.cancelled = false) :
    ∃ b', Represents ((s.setWorker w .popping).setTask slot t) b' := by
  obtain ⟨c, hplace⟩ := (h.jobs w slot handle).mp hworker
  have hflag : p.isQueued = (b.place slot).isQueued := by rw [hplace, hqueued]; rfl
  refine ⟨b.set slot p hflag hid, h.moved (i := slot) rfl rfl hstands h.queue h.tail h.handle ?_ ?_ ?_ hheld rfl⟩
  · intro w' handle'
    show ((s.setWorker w .popping).workers w').job = _ ↔ _
    rw [job_setWorker]
    constructor
    · intro hjob
      by_cases hw : w' = w
      · rw [if_pos hw] at hjob
        cases hjob
      · rw [if_neg hw] at hjob
        exact absurd (h.sole hworker hjob) hw
    · rintro ⟨c', hc'⟩
      exact absurd hc' (htaken _ _ _)
  · intro w' j handle' hj
    show ((s.setWorker w .popping).workers w').job = _ ↔ _
    rw [job_setWorker]
    by_cases hw : w' = w
    · rw [if_pos hw, hw, hworker]
      constructor
      · exact nofun
      · intro hjob
        cases hjob
        exact absurd rfl hj
    · rw [if_neg hw]
  · exact fun id hp => h.positive slot id (hid id hp)

theorem Represents.finish (h : Represents s b) (hworker : (s.workers w).job = some (slot, handle))
    (response : Option Bytes) (length : Nat) (status : Int) :
    ∃ b', Represents (asyncWorkerFinish s w slot response length status) b' := by
  obtain ⟨c, hplace⟩ := (h.jobs w slot handle).mp hworker
  have hstands := h.stands slot
  rw [hplace] at hstands
  unfold asyncWorkerFinish
  simp only
  split
  · -- the task ran to its end
    rename_i hrunning
    obtain ⟨w', hw'⟩ := (h.stands slot).of_running hrunning
    refine h.settled (p := .settled handle false) hworker rfl ?_ ⟨hstands.1, rfl, rfl⟩ nofun ?_
    · rw [hplace]; exact fun _ hid => hid
    · intro handle' hheld
      have hkept := h.held slot handle' hheld
      rw [hplace] at hkept
      exact ⟨hkept.1, rfl⟩
  · -- it was cancelled meanwhile
    rename_i hrunning
    have hcancelled : (s.tasks slot).state = .cancelled := by
      cases c with
      | true => exact hstands.2.1
      | false => exact absurd hstands.2.1 hrunning
    have hnotheld : ∀ handle, s.client.held ≠ some (slot, handle) := by
      intro handle' hheld
      have hkept := (h.held slot handle' hheld).2
      rw [(h.stands slot).of_cancelled hcancelled] at hkept
      cases hkept
    split
    · exact h.settled (p := .free) hworker rfl nofun rfl nofun fun _ hheld => absurd hheld (hnotheld _)
    · refine h.settled (p := .settled handle true) hworker rfl ?_ ⟨hstands.1, hcancelled, rfl⟩ nofun
        fun _ hheld => absurd hheld (hnotheld _)
      rw [hplace]; exact fun _ hid => hid

/-- A worker goes on with the job it has. -/
theorem Represents.working (h : Represents s b) {worker : Worker} (hjob : worker.job = (s.workers w).job) :
    Represents (s.setWorker w worker) b := by
  refine h.same (fun _ => ⟨rfl, rfl, rfl⟩) rfl rfl rfl (fun w' => ?_) h.held
  rw [job_setWorker]
  by_cases hw : w' = w
  · rw [if_pos hw, hjob, hw]
  · rw [if_neg hw]

theorem Represents.push (h : Represents s b) {data bytes : Bytes} (hworker : (s.workers w).job = some (slot, handle))
    (hpush : asyncStreamPush s w slot handle data = some (s', bytes)) : Represents s' b := by
  unfold asyncStreamPush at hpush
  split at hpush
  · cases hpush
    exact h.working hworker.symm
  simp only at hpush
  split at hpush
  · cases hpush
  split at hpush
  · cases hpush
    exact h.working hworker.symm
  · cases hpush
    have htouched : Represents (s.setTask slot { s.tasks slot with
        stream := (s.tasks slot).stream.put _ (put_fits (s.tasks slot).stream data) }) b := h.touched rfl rfl rfl
    exact htouched.working hworker.symm

theorem Represents.setTransport (h : Represents s b) (id transport : Int) :
    Represents (vntNativeHttpAsyncSetTransport s id transport).1 b := by
  unfold vntNativeHttpAsyncSetTransport
  split
  · exact h
  split
  · exact h
  split
  · exact h.touched rfl rfl rfl
  split
  · exact h
  · exact h

theorem Represents.closeTransport (h : Represents s b) (id transport : Int) :
    Represents (vntNativeHttpAsyncShouldCloseTransport s id transport) b := by
  unfold vntNativeHttpAsyncShouldCloseTransport
  split
  · exact h
  split
  · exact h
  split
  · exact h.touched rfl rfl rfl
  · exact h

/-! ## Whole steps -/

theorem Represents.initial : ∃ b, Represents .initial b := by
  refine ⟨⟨fun _ => .free, [], List.nodup_nil, fun _ => ⟨nofun, nofun⟩, nofun⟩, fun _ => rfl, rfl, rfl, ?_, nofun,
    by decide, nofun⟩
  exact fun w i handle => ⟨nofun, nofun⟩

/-- A read that sleeps. -/
theorem streamRead_asleep {maximum maximum' : Nat} (h : vntNativeHttpAsyncStreamRead s id maximum = .asleep slot maximum') :
    s.asyncFindLocked id = some slot ∧ (s.tasks slot).state.pending = true := by
  unfold vntNativeHttpAsyncStreamRead at h
  simp only at h
  split at h
  · cases h
  rename_i slot' hfind
  split at h
  · cases h
  split at h
  · rename_i hsleeps
    cases h
    exact ⟨hfind, hsleeps.2⟩
  · cases h

/-- A read that returns bytes at once. -/
theorem streamRead_reads {maximum maximum' : Nat} (h : vntNativeHttpAsyncStreamRead s id maximum = .reads slot maximum') :
    s.asyncFindLocked id = some slot := by
  unfold vntNativeHttpAsyncStreamRead at h
  simp only at h
  split at h
  · cases h
  rename_i slot' hfind
  split at h
  · cases h
  split at h
  · cases h
  · cases h
    exact hfind

/-- What a call of the client does. -/
inductive ClientMove (s : AsyncState) : Act → AsyncState → Outcome → Prop where
  | start {a : Act} {s' : AsyncState} {method url headers body : Bytes} {mode id : Int} {allocated : Bool} {threads : Nat}
      (ha : a = .start method url headers body allocated threads ∨ a = .streamStart method url headers body allocated threads)
      (hstart : asyncStartImpl s method url headers body mode allocated threads = some (id, s')) :
      ClientMove s a s' (if id = 0 then .returned 0 else .started id)
  | returned {a : Act} (value : Int) : ClientMove s a s (.returned value)
  | copied {a : Act} (copy : Option Bytes) (length : Nat) : ClientMove s a s (.copied copy length)
  | cancel (id : Int) : ClientMove s (.cancel id) (vntNativeHttpAsyncCancel s id).2.1
      (.returned (vntNativeHttpAsyncCancel s id).1)
  | release (id : Int) : ClientMove s (.release id) (vntNativeHttpAsyncRelease s id).2
      (.returned (vntNativeHttpAsyncRelease s id).1)
  | sleeps {a : Act} {client : Client} {slot : Slot} {id : Int} (hfind : s.asyncFindLocked id = some slot)
      (hpending : (s.tasks slot).state.pending = true) (hclient : client.held = some (slot, id)) :
      ClientMove s a { s with client := client } .quiet
  | reads {slot : Slot} {id : Int} {asked : Nat} (maximum : Nat) (hfind : s.asyncFindLocked id = some slot) :
      ClientMove s (.streamRead id asked) (streamTake s slot maximum).2 (.read id (streamTake s slot maximum).1)

theorem clientStep_cases {a : Act} {o : Outcome} (hstep : clientStep s a = some (s', o)) : ClientMove s a s' o := by
  cases a with
  | start method url headers body allocated threads =>
      simp only [clientStep, Option.bind_eq_bind] at hstep
      obtain ⟨r, hstart, heq⟩ := Option.bind_eq_some_iff.mp hstep
      cases heq
      exact .start (.inl rfl) hstart
  | streamStart method url headers body allocated threads =>
      simp only [clientStep, Option.bind_eq_bind] at hstep
      obtain ⟨r, hstart, heq⟩ := Option.bind_eq_some_iff.mp hstep
      cases heq
      exact .start (.inr rfl) hstart
  | poll id => cases hstep; exact .returned _
  | status id => cases hstep; exact .returned _
  | streamDone id => cases hstep; exact .returned _
  | result id => cases hstep; exact .copied _ _
  | cancel id => cases hstep; exact .cancel id
  | release id => cases hstep; exact .release id
  | wait id timeoutMs =>
      simp only [clientStep, vntNativeHttpAsyncWait] at hstep
      split at hstep
      · cases hstep; exact .returned _
      · rename_i slot hfind
        split at hstep
        · rename_i hsleeps
          cases hstep
          exact .sleeps hfind hsleeps.2 rfl
        · cases hstep; exact .returned _
  | streamRead id maximum =>
      simp only [clientStep] at hstep
      split at hstep
      · cases hstep; exact .copied _ _
      · rename_i slot maximum' hread
        cases hstep
        obtain ⟨hfind, hpending⟩ := streamRead_asleep hread
        exact .sleeps hfind hpending rfl
      · rename_i slot maximum' hread
        cases hstep
        exact .reads maximum' (streamRead_reads hread)
  | _ => cases hstep

/-- What a locked piece of worker `w` does. -/
inductive WorkerMove (s : AsyncState) (w : Fin 4) : Act → AsyncState → Outcome → Prop where
  | pop {w' : Fin 4} {s' : AsyncState} (hworker : s.workers w = .popping) (hpop : asyncWorkerPop s w = some s') :
      WorkerMove s w (.pop w') s' .quiet
  | sink {w' : Fin 4} {slot : Slot} {handle : Int} (data : Bytes) (hworker : s.workers w = .running slot handle)
      (hmode : (s.tasks slot).mode = 1) :
      WorkerMove s w (.sink w' data) (s.setWorker w (.pushing slot handle data)) (.offered handle data)
  | push {w' : Fin 4} {slot : Slot} {handle : Int} {data bytes : Bytes} {s' : AsyncState}
      (hworker : s.workers w = .pushing slot handle data)
      (hpush : asyncStreamPush s w slot handle data = some (s', bytes)) :
      WorkerMove s w (.push w') s' (.pushed handle bytes)
  | setTransport {w' : Fin 4} {slot : Slot} {handle : Int} (transport : Int)
      (hworker : s.workers w = .running slot handle) :
      WorkerMove s w (.setTransport w' transport) (vntNativeHttpAsyncSetTransport s handle transport).1 .quiet
  | closeTransport {w' : Fin 4} {slot : Slot} {handle : Int} (transport : Int)
      (hworker : s.workers w = .running slot handle) :
      WorkerMove s w (.closeTransport w' transport) (vntNativeHttpAsyncShouldCloseTransport s handle transport) .quiet
  | finish {w' : Fin 4} {slot : Slot} {handle : Int} (response : Option Bytes) (length : Nat) (status : Int)
      (hworker : s.workers w = .running slot handle) :
      WorkerMove s w (.finish w' response length status) (asyncWorkerFinish s w slot response length status) .quiet

theorem workerStep_cases {a : Act} {o : Outcome} (hstep : workerStep s w a = some (s', o)) : WorkerMove s w a s' o := by
  cases a with
  | pop w' =>
      simp only [workerStep] at hstep
      split at hstep
      · rename_i hworker
        obtain ⟨s₁, hpop, heq⟩ := Option.map_eq_some_iff.mp hstep
        cases heq
        exact .pop hworker hpop
      · cases hstep
  | sink w' data =>
      simp only [workerStep] at hstep
      split at hstep
      · rename_i hworker
        split at hstep
        · rename_i hmode
          cases hstep
          exact .sink data hworker hmode
        · cases hstep
      · cases hstep
  | push w' =>
      simp only [workerStep] at hstep
      split at hstep
      · rename_i hworker
        obtain ⟨r, hpush, heq⟩ := Option.map_eq_some_iff.mp hstep
        cases heq
        exact .push hworker hpush
      · cases hstep
  | setTransport w' transport =>
      simp only [workerStep] at hstep
      split at hstep
      · rename_i hworker
        cases hstep
        exact .setTransport transport hworker
      · cases hstep
  | closeTransport w' transport =>
      simp only [workerStep] at hstep
      split at hstep
      · rename_i hworker
        cases hstep
        exact .closeTransport transport hworker
      · cases hstep
  | finish w' response length status =>
      simp only [workerStep] at hstep
      split at hstep
      · rename_i hworker
        cases hstep
        exact .finish response length status hworker
      · cases hstep
  | _ => cases hstep

/-- What the client does when it wakes up. -/
inductive WakeMove (s : AsyncState) : AsyncState → Outcome → Prop where
  | still : WakeMove s s .quiet
  | returns (value : Int) : WakeMove s { s with client := .ready } (.returned value)
  | reads {slot : Slot} {handle : Int} {maximum : Nat} (hclient : s.client = .reading slot handle maximum) :
      WakeMove s { (streamTake s slot maximum).2 with client := .ready } (.read handle (streamTake s slot maximum).1)

theorem wakeStep_cases {timedOut : Bool} {o : Outcome} (hstep : wakeStep s timedOut = some (s', o)) :
    WakeMove s s' o := by
  unfold wakeStep at hstep
  split at hstep
  · cases hstep
  · split at hstep
    · cases hstep; exact .still
    · cases hstep; exact .returns _
  · rename_i hclient
    split at hstep
    · cases hstep; exact .still
    · cases hstep; exact .reads hclient

theorem Represents.clientStep (h : Represents s b) (hready : s.client = .ready) {a : Act} {o : Outcome}
    (hstep : clientStep s a = some (s', o)) : ∃ b', Represents s' b' := by
  cases clientStep_cases hstep with
  | start ha hstart =>
      obtain ⟨id, s₁, b₁, hstart', hb₁, -⟩ := h.start _ _ _ _ _ _ _
      cases hstart.symm.trans hstart'
      exact ⟨b₁, hb₁⟩
  | returned | copied => exact ⟨b, h⟩
  | cancel id => exact h.cancel hready id
  | release id => exact h.release hready id
  | sleeps hfind hpending hclient => exact ⟨b, h.sleep hclient hfind hpending⟩
  | reads maximum hfind => exact ⟨b, h.streamTake _ _⟩

theorem Represents.wakeStep (h : Represents s b) {timedOut : Bool} {o : Outcome}
    (hstep : wakeStep s timedOut = some (s', o)) : Represents s' b := by
  cases wakeStep_cases hstep with
  | still => exact h
  | returns value => exact h.awake
  | reads hclient => exact (h.streamTake _ _).awake

theorem Represents.workerStep (h : Represents s b) {a : Act} {o : Outcome}
    (hstep : workerStep s w a = some (s', o)) : ∃ b', Represents s' b' := by
  cases workerStep_cases hstep with
  | pop hworker hpop => exact h.pop hworker hpop
  | sink data hworker => exact ⟨b, h.working (by rw [hworker]; rfl)⟩
  | push hworker hpush => exact ⟨b, h.push (by rw [hworker]; rfl) hpush⟩
  | setTransport transport hworker => exact ⟨b, h.setTransport _ _⟩
  | closeTransport transport hworker => exact ⟨b, h.closeTransport _ _⟩
  | finish response length status hworker => exact h.finish (by rw [hworker]; rfl) _ _ _

/-- Whose step it is. -/
theorem step_cases {a : Act} {o : Outcome} (h : step s a = some (s', o)) :
    (∃ w, a.worker? = some w ∧ workerStep s w a = some (s', o)) ∨
      (s.client = .ready ∧ clientStep s a = some (s', o)) ∨
        ∃ timedOut, a = .wake timedOut ∧ wakeStep s timedOut = some (s', o) := by
  unfold step at h
  split at h
  · rename_i w hw
    split at h
    · exact .inl ⟨w, hw, h⟩
    · cases h
  · rename_i hclient
    exact .inr (.inl ⟨hclient, h⟩)
  · split at h
    · exact .inr (.inr ⟨_, rfl, h⟩)
    · cases h

/-- **One step of the table is a change of its board.** -/
theorem Represents.step (h : Represents s b) {a : Act} {o : Outcome} (hstep : step s a = some (s', o)) :
    ∃ b', Represents s' b' := by
  rcases step_cases hstep with ⟨w, -, hw⟩ | ⟨hready, hc⟩ | ⟨timedOut, -, hwake⟩
  · exact h.workerStep hw
  · exact h.clientStep hready hc
  · exact ⟨b, h.wakeStep hwake⟩

end Vnt.Async
