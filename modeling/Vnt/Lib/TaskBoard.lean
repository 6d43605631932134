import Mathlib.Data.List.Nodup

/-!
# `Vnt.Lib.TaskBoard`: who has a task

The purpose of a table of tasks with a queue and workers, without the table. Each slot is free, or its task waits in
the queue, is in the hands of one worker, or is settled; the queue lists exactly the waiting slots, each once, and
two slots never hold the same id. A board is such a state; three ways of changing one slot keep it a board.
-/

namespace Vnt

variable {σ ω ι : Type*}

/-- Where the task of a slot stands; a task can be cancelled in each place. -/
inductive Place (ω ι : Type*) where
  | free
  | queued (id : ι) (cancelled : Bool)
  | taken (id : ι) (worker : ω) (cancelled : Bool)
  | settled (id : ι) (cancelled : Bool)

namespace Place

def id? : Place ω ι → Option ι
  | .free => none
  | .queued id _ | .taken id _ _ | .settled id _ => some id

def cancelled : Place ω ι → Bool
  | .free => false
  | .queued _ cancelled | .taken _ _ cancelled | .settled _ cancelled => cancelled

def isQueued : Place ω ι → Bool
  | .queued _ _ => true
  | _ => false

end Place

/-- A board; its laws are part of the value. -/
structure TaskBoard (σ ω ι : Type*) where
  place : σ → Place ω ι
  queue : List σ
  nodup : queue.Nodup
  mem_queue : ∀ i, i ∈ queue ↔ (place i).isQueued = true
  distinct : ∀ i j id, (place i).id? = some id → (place j).id? = some id → i = j

namespace TaskBoard

variable [DecidableEq σ] (b : TaskBoard σ ω ι) (i : σ) (p : Place ω ι)

omit [DecidableEq σ] in
/-- Ids stay apart when one slot changes to a place whose id no other slot has. -/
theorem distinct_update [DecidableEq σ] (hid : ∀ j ≠ i, ∀ id, p.id? = some id → (b.place j).id? ≠ some id) :
    ∀ j k id, (Function.update b.place i p j).id? = some id → (Function.update b.place i p k).id? = some id →
      j = k := by
  intro j k id hj hk
  by_cases hji : j = i
  · subst hji
    rw [Function.update_self] at hj
    by_cases hkj : k = j
    · exact hkj.symm
    · rw [Function.update_of_ne hkj] at hk
      exact absurd hk (hid k hkj id hj)
  · rw [Function.update_of_ne hji] at hj
    by_cases hki : k = i
    · subst hki
      rw [Function.update_self] at hk
      exact absurd hj (hid j hji id hk)
    · rw [Function.update_of_ne hki] at hk
      exact b.distinct j k id hj hk

variable {i p}

omit [DecidableEq σ] in
/-- A slot that keeps its id, or gives it up, keeps the ids apart. -/
theorem id_apart (hid : ∀ id, p.id? = some id → (b.place i).id? = some id) :
    ∀ j ≠ i, ∀ id, p.id? = some id → (b.place j).id? ≠ some id := by
  intro j hj id hp hplace
  exact hj (b.distinct j i id hplace (hid id hp))

/-- A change that leaves the queue alone. -/
def set (i : σ) (p : Place ω ι) (hqueue : p.isQueued = (b.place i).isQueued)
    (hid : ∀ id, p.id? = some id → (b.place i).id? = some id) : TaskBoard σ ω ι where
  place := Function.update b.place i p
  queue := b.queue
  nodup := b.nodup
  mem_queue := by
    intro j
    rw [b.mem_queue]
    by_cases hj : j = i
    · subst hj
      rw [Function.update_self, hqueue]
    · rw [Function.update_of_ne hj]
  distinct := b.distinct_update i p (b.id_apart hid)

/-- A new task behind the others. -/
def push (i : σ) (id : ι) (hfree : (b.place i).isQueued = false) (hnew : ∀ j ≠ i, (b.place j).id? ≠ some id) :
    TaskBoard σ ω ι where
  place := Function.update b.place i (.queued id false)
  queue := b.queue ++ [i]
  nodup := by
    apply List.Nodup.append b.nodup (List.nodup_singleton i)
    intro j hj hi
    rw [List.mem_singleton] at hi
    subst hi
    rw [b.mem_queue, hfree] at hj
    cases hj
  mem_queue := by
    intro j
    rw [List.mem_append, b.mem_queue, List.mem_singleton]
    by_cases hj : j = i
    · subst hj
      rw [Function.update_self]
      exact ⟨fun _ => rfl, fun _ => .inr rfl⟩
    · rw [Function.update_of_ne hj]
      exact ⟨fun h => h.resolve_right hj, .inl⟩
  distinct := by
    apply b.distinct_update
    intro j hj id' hid'
    cases hid'
    exact hnew j hj

/-- The first task leaves the queue. -/
def pop {rest : List σ} (i : σ) (p : Place ω ι) (hhead : b.queue = i :: rest) (hqueue : p.isQueued = false)
    (hid : ∀ id, p.id? = some id → (b.place i).id? = some id) : TaskBoard σ ω ι where
  place := Function.update b.place i p
  queue := rest
  nodup := by
    have hnodup := b.nodup
    rw [hhead] at hnodup
    exact (List.nodup_cons.mp hnodup).2
  mem_queue := by
    have hnodup := b.nodup
    rw [hhead] at hnodup
    have hrest := (List.nodup_cons.mp hnodup).1
    intro j
    by_cases hj : j = i
    · subst hj
      rw [Function.update_self, hqueue]
      exact ⟨fun h => absurd h hrest, nofun⟩
    · rw [Function.update_of_ne hj, ← b.mem_queue, hhead, List.mem_cons]
      exact ⟨.inr, fun h => h.resolve_left hj⟩
  distinct := b.distinct_update i p (b.id_apart hid)

end TaskBoard

end Vnt
