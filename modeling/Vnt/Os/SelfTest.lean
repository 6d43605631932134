import Mathlib.Algebra.BigOperators.Group.Finset.Piecewise
import Mathlib.Algebra.Order.BigOperators.Group.Finset
import Mathlib.Algebra.GroupWithZero.Nat

/-!
# `Os.SelfTest` — the atomic counter test of `kernel/smp.vnt`

The bootstrap processor arms the test, sends every other CPU an interrupt, waits until all of them have reported, lets them
go, and counts together with them. A step is one access of one processor to a word of `vntos_state`, or the sending of
one interrupt; the steps are interleaved in any order. Every wait gives up after `patience` turns, and the sending of an
interrupt may fail, with or without the interrupt being delivered.
-/

namespace Vnt.Os.SelfTest

/-- The words from slot 308 on. -/
structure Words where
  counter : Nat
  mode : Nat
  completed : Nat
  ready : Nat
  go : Nat

/-- The increments of one processor. -/
def batch : Nat := 1000

/-- The turns of a wait. -/
def patience : Nat := 50000000

/-! ## The processors -/

/-- Where a CPU stands in `smp_handle_ipi`. -/
inductive Point where
  /-- In the loop around `hlt`. -/
  | idle
  /-- In front of `state_get(309) == 2`. -/
  | entered
  /-- In front of `state_get(309) == 1`. -/
  | asked
  | arrive
  | wait (spins : Nat)
  | check
  | work (done : Nat)
  | leave
  | finish
  /-- In the contention test, which is not this one. -/
  | contend
  deriving DecidableEq

/-- A CPU, and how often it has incremented `ready`, `counter` and `completed`. -/
structure Ap where
  point : Point
  pending : Bool
  arrivals : Nat
  increments : Nat
  departures : Nat
  deriving DecidableEq

/-- A CPU that has had no interrupt. -/
def Ap.fresh : Ap := ⟨.idle, false, 0, 0, 0⟩

/-- The next access of a CPU. -/
def Ap.step (w : Words) (ap : Ap) : Option (Words × Ap) :=
  match ap.point with
  | .idle => if ap.pending then some (w, { ap with point := .entered, pending := false }) else none
  | .entered => some (w, { ap with point := if w.mode = 2 then .contend else .asked })
  | .asked => some (w, { ap with point := if w.mode = 1 then .arrive else .finish })
  | .arrive => some ({ w with ready := w.ready + 1 }, { ap with point := .wait 0, arrivals := ap.arrivals + 1 })
  | .wait spins => some (w, { ap with point := if w.go = 0 ∧ spins < patience then .wait (spins + 1) else .check })
  | .check => some (w, { ap with point := if w.go = 1 then .work 0 else .leave })
  | .work done =>
      if done < batch then
        some ({ w with counter := w.counter + 1 }, { ap with point := .work (done + 1), increments := ap.increments + 1 })
      else some (w, { ap with point := .leave })
  | .leave =>
      some ({ w with completed := w.completed + 1 }, { ap with point := .finish, departures := ap.departures + 1 })
  | .finish => some (w, { ap with point := .idle })
  | .contend => none

variable {ω : Type}

/-- Where the bootstrap processor stands in `smp_atomic_counter_self_test`. -/
inductive Bsp (ω : Type) where
  /-- So many of the five words are set. -/
  | arm (stores : Nat)
  /-- These CPUs are still to be interrupted. -/
  | send (rest : List ω)
  | awaitReady (spins : Nat)
  | checkReady
  | release
  | work (done : Nat)
  | awaitCompleted (spins : Nat)
  | disarm
  | checkCompleted
  | checkCounter
  /-- `state_set(309, 0)` and `state_set(312, 1)` in front of `return 0`. -/
  | abort
  | abortRelease
  | returned (result : Nat)
  deriving DecidableEq

structure State (ω : Type) where
  words : Words
  bsp : Bsp ω
  aps : ω → Ap

/-- What comes next: an access of a processor, or an interrupt that is refused, and delivered all the same or not. -/
inductive Act (ω : Type) where
  | bsp
  | refused (delivered : Bool)
  | ap (c : ω)
  deriving DecidableEq

/-- The words behind the first stores. -/
def Words.arm (w : Words) : Nat → Words
  | 0 => { w with counter := 0 }
  | 1 => { w with mode := 1 }
  | 2 => { w with completed := 0 }
  | 3 => { w with ready := 0 }
  | _ => { w with go := 0 }

/-- An access of the bootstrap processor. `targets` are the other CPUs, in the order of the MADT. -/
def Bsp.step (targets : List ω) (w : Words) : Bsp ω → Option (Words × Bsp ω)
  | .arm stores => some (w.arm stores, if stores < 4 then .arm (stores + 1) else .send targets)
  | .send [] => some (w, .awaitReady 0)
  | .send (_ :: rest) => some (w, .send rest)
  | .awaitReady spins =>
      some (w, if w.ready < targets.length ∧ spins < patience then .awaitReady (spins + 1) else .checkReady)
  | .checkReady => some (w, if w.ready ≠ targets.length then .abort else .release)
  | .release => some ({ w with go := 1 }, .work 0)
  | .work done =>
      if done < batch then some ({ w with counter := w.counter + 1 }, .work (done + 1))
      else some (w, .awaitCompleted 0)
  | .awaitCompleted spins =>
      some (w, if w.completed < targets.length ∧ spins < patience then .awaitCompleted (spins + 1) else .disarm)
  | .disarm => some ({ w with mode := 0 }, .checkCompleted)
  | .checkCompleted => some (w, if w.completed ≠ targets.length then .returned 0 else .checkCounter)
  | .checkCounter => some (w, .returned (if w.counter ≠ (targets.length + 1) * batch then 0 else 1))
  | .abort => some ({ w with mode := 0 }, .abortRelease)
  | .abortRelease => some ({ w with go := 1 }, .returned 0)
  | .returned _ => none

/-- The CPU that the next interrupt goes to. -/
def Bsp.target : Bsp ω → Option ω
  | .send (c :: _) => some c
  | _ => none

theorem foldlM_keeps {f : State ω → Act ω → Option (State ω)} {p : State ω → Prop}
    (hf : ∀ s act s', p s → f s act = some s' → p s') {acts : List (Act ω)} {s s' : State ω} (hp : p s)
    (hacts : acts.foldlM f s = some s') : p s' := by
  induction acts generalizing s with
  | nil =>
      cases hacts
      exact hp
  | cons act acts ih =>
      rw [List.foldlM_cons] at hacts
      obtain ⟨mid, hstep, hacts⟩ := Option.bind_eq_some_iff.mp hacts
      exact ih (hf s act mid hp hstep) hacts

section

variable [DecidableEq ω]

/-- `apic_send_icr`, as far as the CPU sees it. -/
def interrupt (aps : ω → Ap) (c : ω) : ω → Ap := Function.update aps c { aps c with pending := true }

def step (targets : List ω) (s : State ω) : Act ω → Option (State ω)
  | .bsp =>
      let aps := match s.bsp.target with
        | some c => interrupt s.aps c
        | none => s.aps
      (s.bsp.step targets s.words).map fun (words, bsp) => ⟨words, bsp, aps⟩
  | .refused delivered =>
      match s.bsp.target with
      | some c => some ⟨s.words, .abort, if delivered then interrupt s.aps c else s.aps⟩
      | none => none
  | .ap c => ((s.aps c).step s.words).map fun (words, ap) => ⟨words, s.bsp, Function.update s.aps c ap⟩

/-- The beginning of the test: no CPU is in the handler. -/
def start (words : Words) : State ω := ⟨words, .arm 0, fun _ => .fresh⟩

/-- The acts, one after the other. -/
def run (targets : List ω) (s : State ω) (acts : List (Act ω)) : Option (State ω) := acts.foldlM (step targets) s

/-- A wait that has turns left, or no wait; no interrupt is refused. -/
def patient (s : State ω) : Act ω → Bool
  | .bsp =>
      match s.bsp with
      | .awaitReady spins | .awaitCompleted spins => spins < patience
      | _ => true
  | .refused _ => false
  | .ap c =>
      match (s.aps c).point with
      | .wait spins => spins < patience
      | _ => true

def patientStep (targets : List ω) (s : State ω) (act : Act ω) : Option (State ω) :=
  if patient s act then step targets s act else none

/-- The effect of an access of one CPU. -/
theorem step_ap {targets : List ω} {s s' : State ω} {c : ω} (h : step targets s (.ap c) = some s') : ∃ w ap,
    (s.aps c).step s.words = some (w, ap) ∧ s' = ⟨w, s.bsp, Function.update s.aps c ap⟩ := by
  obtain ⟨⟨w, ap⟩, hstep, rfl⟩ := Option.map_eq_some_iff.mp h
  exact ⟨w, ap, hstep, rfl⟩

theorem forall_update {p : Ap → Prop} {aps : ω → Ap} {c : ω} {ap : Ap} (hp : ∀ c, p (aps c)) (hap : p ap) (x : ω) :
    p (Function.update aps c ap x) := by
  by_cases hx : x = c
  · rw [hx, Function.update_self]
    exact hap
  · rw [Function.update_of_ne hx]
    exact hp x

end

/-! ## One CPU -/

/-- What a CPU has done by the time it is where it is. In a patient run, which is what `p` says, it leaves the test only
    with all its increments. -/
def Ap.Ok (p : Prop) (ap : Ap) : Prop :=
  match ap.point with
  | .idle | .finish => (ap.pending = true → ap = ⟨.idle, true, 0, 0, 0⟩) ∧ ap.arrivals = ap.departures ∧
      ap.departures ≤ 1 ∧ ap.increments ≤ batch ∧ (p → ap.departures = 1 → ap.increments = batch)
  | .entered | .asked | .arrive => ap = ⟨ap.point, false, 0, 0, 0⟩
  | .wait _ | .check => ap = ⟨ap.point, false, 1, 0, 0⟩
  | .work done => ap = ⟨ap.point, false, 1, done, 0⟩ ∧ done ≤ batch
  | .leave => ap = ⟨ap.point, false, 1, ap.increments, 0⟩ ∧ ap.increments ≤ batch ∧ (p → ap.increments = batch)
  | .contend => False

/-- A CPU that has not been let go. -/
def Ap.Quiet (p : Prop) (ap : Ap) : Prop :=
  ap.increments = 0 ∧ (∀ done, ap.point ≠ .work done) ∧ (p → ap.point ≠ .check)

/-- A CPU that has been through the whole handler. -/
structure Ap.Complete (ap : Ap) : Prop where
  away : ap.point = .idle ∨ ap.point = .finish
  pending : ap.pending = false
  arrivals : ap.arrivals = 1
  increments : ap.increments = batch
  departures : ap.departures = 1

/-- The words change by what the CPU has counted, and it alone clears neither `mode` nor `go`. -/
structure Moves (w w' : Words) (ap ap' : Ap) : Prop where
  ready : w'.ready + ap.arrivals = w.ready + ap'.arrivals
  counter : w'.counter + ap.increments = w.counter + ap'.increments
  completed : w'.completed + ap.departures = w.completed + ap'.departures
  arrivals : ap.arrivals ≤ ap'.arrivals
  departures : ap.departures ≤ ap'.departures
  mode : w'.mode = w.mode
  go : w'.go = w.go

variable {p : Prop} {w w' : Words} {targets : List ω} {s s' : State ω} {k : Nat}

theorem Ap.step_moves {ap ap' : Ap} (h : ap.step w = some (w', ap')) : Moves w w' ap ap' := by
  obtain ⟨point, pending, arrivals, increments, departures⟩ := ap
  cases point with
  | idle =>
      simp only [Ap.step, Option.ite_none_right_eq_some, Option.some.injEq, Prod.mk.injEq] at h
      obtain ⟨-, rfl, rfl⟩ := h
      exact ⟨rfl, rfl, rfl, Nat.le_refl _, Nat.le_refl _, rfl, rfl⟩
  | contend => simp [Ap.step] at h
  | work done =>
      simp only [Ap.step] at h
      split at h
      all_goals
        cases h
        constructor <;> simp <;> omega
  | _ =>
      cases h
      constructor <;> simp <;> omega

theorem Ap.step_ok {ap ap' : Ap} (hmode : w.mode ≠ 2) (hgo : p → ap.point = .check → w.go = 1) (hok : ap.Ok p)
    (h : ap.step w = some (w', ap')) : ap'.Ok p := by
  obtain ⟨point, pending, arrivals, increments, departures⟩ := ap
  cases point with
  | idle =>
      simp only [Ap.step, Option.ite_none_right_eq_some, Option.some.injEq, Prod.mk.injEq] at h
      obtain ⟨hpending, -, rfl⟩ := h
      simp_all [Ap.Ok]
  | contend => exact hok.elim
  | work done =>
      simp only [Ap.step] at h
      simp only [Ap.Ok, Ap.mk.injEq, true_and] at hok
      split at h
      all_goals
        cases h
        grind [Ap.Ok]
  | _ =>
      cases h
      simp only [Ap.Ok, Ap.mk.injEq, true_and] at hok
      simp only [Ap.Ok]
      grind

/-- As long as `go` is clear nobody is let go, and nobody gives up who is patient. -/
theorem Ap.step_quiet {ap ap' : Ap} (hgo : w.go = 0) (hpatient : p → ∀ spins, ap.point = .wait spins → spins < patience)
    (hquiet : ap.Quiet p) (h : ap.step w = some (w', ap')) : ap'.Quiet p := by
  obtain ⟨point, pending, arrivals, increments, departures⟩ := ap
  simp only [Ap.Quiet] at hquiet
  cases point with
  | work done => exact absurd rfl (hquiet.2.1 done)
  | _ =>
      simp only [Ap.step] at h
      grind [Ap.Quiet]

/-- Behind the handler a CPU counts nothing any more. -/
theorem Ap.Complete.step {ap ap' : Ap} (hcomplete : ap.Complete) (h : ap.step w = some (w', ap')) :
    ap'.Complete ∧ w' = w := by
  obtain ⟨point, pending, arrivals, increments, departures⟩ := ap
  obtain ⟨haway, rfl, rfl, rfl, rfl⟩ := hcomplete
  obtain rfl | rfl := haway
  · simp [Ap.step] at h
  · cases h
    exact ⟨⟨.inl rfl, rfl, rfl, rfl, rfl⟩, rfl⟩

/-- Who has incremented `completed` is behind the handler, and had arrived. -/
theorem Ap.Ok.departed {ap : Ap} (hok : ap.Ok p) (h : ap.departures = 1) :
    (ap.point = .idle ∨ ap.point = .finish) ∧ ap.pending = false ∧ ap.arrivals = 1 ∧ (p → ap.increments = batch) := by
  obtain ⟨point, pending, arrivals, increments, departures⟩ := ap
  cases point <;> simp [Ap.Ok] at hok ⊢ <;> grind

theorem Ap.Ok.bounds {ap : Ap} (hok : ap.Ok p) : ap.arrivals ≤ 1 ∧ ap.increments ≤ batch ∧ ap.departures ≤ ap.arrivals := by
  obtain ⟨point, pending, arrivals, increments, departures⟩ := ap
  cases point <;> simp [Ap.Ok] at hok ⊢ <;> grind

/-! ## All the CPUs -/

variable [Fintype ω]

def total (tally : Ap → Nat) (aps : ω → Ap) : Nat := ∑ c, tally (aps c)

theorem total_le {tally : Ap → Nat} {aps : ω → Ap} {bound : Nat} (hle : ∀ c, tally (aps c) ≤ bound) :
    total tally aps ≤ Fintype.card ω * bound := by
  rw [← Finset.card_univ, ← Finset.sum_const_nat fun _ _ => rfl]
  exact Finset.sum_le_sum fun c _ => hle c

/-- A tally that is at most `bound` on every CPU and is `bound` for each on the whole is `bound` on every one. -/
theorem eq_of_total {tally : Ap → Nat} {aps : ω → Ap} {bound : Nat} (hle : ∀ c, tally (aps c) ≤ bound)
    (htotal : total tally aps = Fintype.card ω * bound) (c : ω) : tally (aps c) = bound := by
  have hsum : ∑ c, tally (aps c) = ∑ _c : ω, bound := by
    rw [Finset.sum_const_nat fun _ _ => rfl, Finset.card_univ, ← htotal, total]
  exact (Finset.sum_eq_sum_iff_of_le fun c _ => hle c).mp hsum c (Finset.mem_univ c)

/-- The words are what the processors have counted, `k` increments being the bootstrap processor's. -/
structure Tallied (p : Prop) (k : Nat) (s : State ω) : Prop where
  ok : ∀ c, (s.aps c).Ok p
  ready : s.words.ready = total Ap.arrivals s.aps
  counter : s.words.counter = k + total Ap.increments s.aps
  completed : s.words.completed = total Ap.departures s.aps
  mode : s.words.mode ≠ 2

/-- The barrier is closed: the test is armed and nobody has been let go. -/
structure Closed (p : Prop) (s : State ω) : Prop extends Tallied p 0 s where
  armed : s.words.mode = 1
  go : s.words.go = 0
  quiet : ∀ c, (s.aps c).Quiet p

/-- The barrier is open, all having arrived. -/
structure Open (p : Prop) (k : Nat) (s : State ω) : Prop extends Tallied p k s where
  go : s.words.go = 1
  arrived : s.words.ready = Fintype.card ω

/-- The test is over; CPUs may still be in the handler. -/
def Over (p : Prop) (s : State ω) : Prop := (∀ c, (s.aps c).Ok p) ∧ s.words.mode = 0

theorem Tallied.ready_le (ht : Tallied p k s) : s.words.ready ≤ Fintype.card ω := by
  rw [ht.ready, ← Nat.mul_one (Fintype.card ω)]
  exact total_le fun c => (ht.ok c).bounds.1

theorem Tallied.completed_le (ht : Tallied p k s) : s.words.completed ≤ Fintype.card ω := by
  rw [ht.completed, ← Nat.mul_one (Fintype.card ω)]
  exact total_le fun c => (ht.ok c).bounds.2.2.trans (ht.ok c).bounds.1

theorem Open.all_arrived (hopen : Open p k s) (c : ω) : (s.aps c).arrivals = 1 :=
  eq_of_total (fun c => (hopen.ok c).bounds.1) (by rw [← hopen.ready, hopen.arrived, Nat.mul_one]) c

theorem Tallied.all_departed (ht : Tallied p k s) (h : s.words.completed = Fintype.card ω) (c : ω) :
    (s.aps c).departures = 1 :=
  eq_of_total (fun c => (ht.ok c).bounds.2.2.trans (ht.ok c).bounds.1) (by rw [← ht.completed, h, Nat.mul_one]) c

/-- The sum over the CPUs is right only if each of them has made all its increments. -/
theorem Open.complete (hopen : Open p batch s) (hcompleted : s.words.completed = Fintype.card ω)
    (hcounter : s.words.counter = (Fintype.card ω + 1) * batch) (c : ω) : (s.aps c).Complete := by
  have hdepartures := hopen.all_departed hcompleted c
  have hincrements : (s.aps c).increments = batch := by
    refine eq_of_total (fun c => (hopen.ok c).bounds.2.1) ?_ c
    have := hopen.counter
    rw [hcounter, Nat.add_mul, Nat.one_mul] at this
    omega
  obtain ⟨haway, hpending, harrivals, -⟩ := (hopen.ok c).departed hdepartures
  exact ⟨haway, hpending, harrivals, hincrements, hdepartures⟩

/-- In a patient run the sum is right. -/
theorem Open.counted (hopen : Open p batch s) (hcompleted : s.words.completed = Fintype.card ω) (hp : p) :
    s.words.counter = (Fintype.card ω + 1) * batch := by
  have hincrements (c : ω) : (s.aps c).increments = batch :=
    ((hopen.ok c).departed (hopen.all_departed hcompleted c)).2.2.2 hp
  rw [hopen.counter, total, Finset.sum_const_nat fun c _ => hincrements c, Finset.card_univ, Nat.add_mul, Nat.one_mul,
    Nat.add_comm]

/-- What holds at each point of the bootstrap processor. -/
def Phase (p : Prop) (s : State ω) : Prop :=
  match s.bsp with
  | .arm stores => (∀ c, s.aps c = .fresh) ∧ stores ≤ 4 ∧ (0 < stores → s.words.counter = 0) ∧
      (1 < stores → s.words.mode = 1) ∧ (2 < stores → s.words.completed = 0) ∧ (3 < stores → s.words.ready = 0)
  | .send rest => Closed p s ∧ rest.Nodup ∧ ∀ c ∈ rest, s.aps c = .fresh
  | .awaitReady _ => Closed p s
  | .checkReady => Closed p s ∧ (p → s.words.ready = Fintype.card ω)
  | .release => Closed p s ∧ s.words.ready = Fintype.card ω
  | .work done => Open p done s ∧ done ≤ batch
  | .awaitCompleted _ => Open p batch s
  | .disarm => Open p batch s ∧ (p → s.words.completed = Fintype.card ω)
  | .checkCompleted => (Open p batch s ∧ (p → s.words.completed = Fintype.card ω)) ∧ s.words.mode = 0
  | .checkCounter => (Open p batch s ∧ s.words.completed = Fintype.card ω) ∧ s.words.mode = 0
  | .abort => Closed p s ∧ ¬p
  | .abortRelease => Over p s ∧ ¬p
  | .returned result => Over p s ∧ (p → result = 1) ∧ (result = 1 → ∀ c, (s.aps c).Complete)

theorem total_fresh {aps : ω → Ap} (hfresh : ∀ c, aps c = .fresh) (tally : Ap → Nat) (hzero : tally .fresh = 0) :
    total tally aps = 0 :=
  Finset.sum_eq_zero fun c _ => by rw [hfresh c, hzero]

theorem closed_start {aps : ω → Ap} {words : Words} {bsp : Bsp ω} (hfresh : ∀ c, aps c = .fresh)
    (hcounter : words.counter = 0) (hmode : words.mode = 1) (hcompleted : words.completed = 0)
    (hready : words.ready = 0) (hgo : words.go = 0) : Closed p ⟨words, bsp, aps⟩ where
  ok c := by simp [hfresh c, Ap.fresh, Ap.Ok]
  ready := by rw [total_fresh hfresh _ rfl]; exact hready
  counter := by rw [total_fresh hfresh _ rfl]; exact hcounter
  completed := by rw [total_fresh hfresh _ rfl]; exact hcompleted
  mode := by simp [hmode]
  armed := hmode
  go := hgo
  quiet c := by simp [hfresh c, Ap.fresh, Ap.Quiet]

theorem start_phase (words : Words) : Phase p (start words : State ω) := by
  simp [Phase, start]

/-! ## The run -/

variable [DecidableEq ω] {c : ω} {acts : List (Act ω)} {words : Words}

theorem total_update (tally : Ap → Nat) (aps : ω → Ap) (c : ω) (ap : Ap) :
    total tally (Function.update aps c ap) + tally (aps c) = total tally aps + tally ap := by
  have hrest : ∑ x ∈ Finset.univ \ {c}, tally (Function.update aps c ap x) =
      ∑ x ∈ Finset.univ \ {c}, tally (aps x) := by
    refine Finset.sum_congr rfl fun x hx => ?_
    rw [Function.update_of_ne (by simpa using hx)]
  rw [total, total, Finset.sum_eq_sum_sdiff_singleton_add (Finset.mem_univ c), hrest, Function.update_self,
    Finset.sum_eq_sum_sdiff_singleton_add (Finset.mem_univ c) fun x => tally (aps x)]
  omega

theorem Tallied.ap {ap : Ap} (ht : Tallied p k s) (hgo : p → (s.aps c).point = .check → s.words.go = 1)
    (h : (s.aps c).step s.words = some (w, ap)) : Tallied p k ⟨w, s.bsp, Function.update s.aps c ap⟩ := by
  have hmoves := Ap.step_moves h
  have hready := total_update Ap.arrivals s.aps c ap
  have hcounter := total_update Ap.increments s.aps c ap
  have hcompleted := total_update Ap.departures s.aps c ap
  obtain ⟨hok, hr, hc, hd, hmode⟩ := ht
  obtain ⟨hmr, hmc, hmd, -, -, hmm, -⟩ := hmoves
  refine ⟨forall_update hok (Ap.step_ok hmode hgo (hok c) h), ?_, ?_, ?_, hmm ▸ hmode⟩
  all_goals
    simp only
    omega

theorem Closed.ap {ap : Ap} (hclosed : Closed p s)
    (hpatient : p → ∀ spins, (s.aps c).point = .wait spins → spins < patience)
    (h : (s.aps c).step s.words = some (w, ap)) : Closed p ⟨w, s.bsp, Function.update s.aps c ap⟩ := by
  have hmoves := Ap.step_moves h
  exact { hclosed.toTallied.ap (fun hp hcheck => absurd hcheck ((hclosed.quiet c).2.2 hp)) h with
    armed := hmoves.mode.trans hclosed.armed
    go := hmoves.go.trans hclosed.go
    quiet := forall_update hclosed.quiet (Ap.step_quiet hclosed.go hpatient (hclosed.quiet c) h) }

omit [DecidableEq ω] in
/-- Once all have arrived, or all are done, that stays so. -/
theorem Tallied.full {ap ap' : Ap} (ht : Tallied p k s) (h : Moves w s.words ap ap') :
    (w.ready = Fintype.card ω → s.words.ready = Fintype.card ω) ∧
      (w.completed = Fintype.card ω → s.words.completed = Fintype.card ω) := by
  obtain ⟨hmr, -, hmc, hma, hmd, -, -⟩ := h
  have hready := ht.ready_le
  have hcompleted := ht.completed_le
  omega

theorem Open.ap {ap : Ap} (hopen : Open p k s) (h : (s.aps c).step s.words = some (w, ap)) :
    Open p k ⟨w, s.bsp, Function.update s.aps c ap⟩ :=
  have ht := hopen.toTallied.ap (fun _ _ => hopen.go) h
  { ht with
    go := (Ap.step_moves h).go.trans hopen.go
    arrived := (ht.full (Ap.step_moves h)).1 hopen.arrived }

/-- An access of a CPU keeps what holds where the bootstrap processor stands. -/
theorem Phase.ap (hphase : Phase p s) (hpatient : p → patient s (.ap c) = true)
    (h : step targets s (.ap c) = some s') : Phase p s' := by
  obtain ⟨w, ap, hstep, rfl⟩ := step_ap h
  obtain ⟨words, bsp, aps⟩ := s
  -- a CPU that has had no interrupt has no access to make
  have hfresh : aps c ≠ .fresh := by
    intro hfresh
    simp only [hfresh] at hstep
    cases hstep
  have hmoves := Ap.step_moves hstep
  have hwait (hp : p) (spins : Nat) (hwait : (aps c).point = .wait spins) : spins < patience := by
    simpa [patient, hwait] using hpatient hp
  have hover (hover : Over p ⟨words, bsp, aps⟩) (hgo : p → (aps c).point = .check → words.go = 1) :
      Over p ⟨w, bsp, Function.update aps c ap⟩ :=
    ⟨forall_update hover.1 (Ap.step_ok (by simp [show words.mode = 0 from hover.2]) hgo (hover.1 c) hstep),
      hmoves.mode.trans hover.2⟩
  cases bsp with
  | arm stores => exact absurd (hphase.1 c) hfresh
  | send rest =>
      refine ⟨hphase.1.ap hwait hstep, hphase.2.1, fun x hx => ?_⟩
      have hxc : x ≠ c := by
        rintro rfl
        exact hfresh (hphase.2.2 x hx)
      simp only [Function.update_of_ne hxc]
      exact hphase.2.2 x hx
  | awaitReady spins => exact Closed.ap hphase hwait hstep
  | checkReady =>
      have hclosed := hphase.1.ap hwait hstep
      exact ⟨hclosed, fun hp => (hclosed.full hmoves).1 (hphase.2 hp)⟩
  | release =>
      have hclosed := hphase.1.ap hwait hstep
      exact ⟨hclosed, (hclosed.full hmoves).1 hphase.2⟩
  | work done => exact ⟨hphase.1.ap hstep, hphase.2⟩
  | awaitCompleted spins => exact Open.ap hphase hstep
  | disarm =>
      have hopen := hphase.1.ap hstep
      exact ⟨hopen, fun hp => (hopen.full hmoves).2 (hphase.2 hp)⟩
  | checkCompleted =>
      have hopen := hphase.1.1.ap hstep
      exact ⟨⟨hopen, fun hp => (hopen.full hmoves).2 (hphase.1.2 hp)⟩, hmoves.mode.trans hphase.2⟩
  | checkCounter =>
      have hopen := hphase.1.1.ap hstep
      exact ⟨⟨hopen, (hopen.full hmoves).2 hphase.1.2⟩, hmoves.mode.trans hphase.2⟩
  | abort => exact ⟨hphase.1.ap hwait hstep, hphase.2⟩
  | abortRelease => exact ⟨hover hphase.1 fun hp => absurd hp hphase.2, hphase.2⟩
  | returned result =>
      obtain ⟨hdone, hone, hcomplete⟩ := hphase
      refine ⟨hover hdone fun hp hcheck => ?_, hone, fun h => forall_update (hcomplete h) ((hcomplete h c).step hstep).1⟩
      have haway := (hcomplete (hone hp) c).away
      simp [hcheck] at haway

/-- An interrupt to a CPU that has had none leaves the barrier closed. -/
theorem Closed.interrupted (hclosed : Closed p s) (hfresh : s.aps c = .fresh) (bsp : Bsp ω) :
    Closed p ⟨s.words, bsp, interrupt s.aps c⟩ := by
  have hsame (tally : Ap → Nat) (htally : tally ⟨.idle, true, 0, 0, 0⟩ = tally .fresh) :
      total tally s.aps = total tally (interrupt s.aps c) := by
    have := total_update tally s.aps c { s.aps c with pending := true }
    rw [hfresh] at this
    simp only [interrupt, hfresh]
    simp only [Ap.fresh] at this htally ⊢
    omega
  exact
    { ok := forall_update hclosed.ok (by simp [hfresh, Ap.fresh, Ap.Ok])
      ready := hclosed.ready.trans (hsame Ap.arrivals rfl)
      counter := by rw [← hsame Ap.increments rfl]; exact hclosed.counter
      completed := hclosed.completed.trans (hsame Ap.departures rfl)
      mode := hclosed.mode
      armed := hclosed.armed
      go := hclosed.go
      quiet := forall_update hclosed.quiet (by simp [hfresh, Ap.fresh, Ap.Quiet]) }

/-- An access of the bootstrap processor, or an interrupt it sends, leads to what holds where it goes on. -/
theorem Phase.bsp (hall : targets.length = Fintype.card ω) (hnodup : targets.Nodup) (hphase : Phase p s)
    (hpatient : p → patient s .bsp = true) (h : step targets s .bsp = some s') : Phase p s' := by
  obtain ⟨words, bsp, aps⟩ := s
  cases bsp with
  | arm stores =>
      obtain ⟨hfresh, hle, hcounter, hmode, hcompleted, hready⟩ := hphase
      cases h
      by_cases hlt : stores < 4
      · rw [if_pos hlt]
        have hstores : stores = 0 ∨ stores = 1 ∨ stores = 2 ∨ stores = 3 := by omega
        obtain rfl | rfl | rfl | rfl := hstores
        all_goals simp_all [Phase, Words.arm, Bsp.target]
      · obtain rfl : stores = 4 := by omega
        rw [if_neg hlt]
        exact ⟨closed_start hfresh (hcounter (by decide)) (hmode (by decide)) (hcompleted (by decide))
          (hready (by decide)) rfl, hnodup, fun c _ => hfresh c⟩
  | send rest =>
      obtain ⟨hclosed, hrest, hfresh⟩ := hphase
      cases rest with
      | nil =>
          cases h
          exact { hclosed with }
      | cons c rest =>
          cases h
          -- nobody is interrupted twice
          obtain ⟨hc, hrest⟩ := List.nodup_cons.mp hrest
          refine ⟨hclosed.interrupted (hfresh c List.mem_cons_self) _, hrest, fun x hx => ?_⟩
          have hxc : x ≠ c := by
            rintro rfl
            exact hc hx
          simp only [Bsp.target, interrupt, Function.update_of_ne hxc]
          exact hfresh x (List.mem_cons_of_mem c hx)
  | awaitReady spins =>
      cases h
      split
      · exact { show Closed p _ from hphase with }
      · rename_i hwait
        have hclosed : Closed p _ := hphase
        simp only at hwait
        refine ⟨{ hclosed with }, fun hp => ?_⟩
        have hspins := hpatient hp
        simp only [patient, decide_eq_true_eq] at hspins
        have hle : words.ready ≤ Fintype.card ω := hclosed.ready_le
        show words.ready = Fintype.card ω
        omega
  | checkReady =>
      cases h
      obtain ⟨hclosed, hready⟩ := hphase
      split
      · rename_i hne
        exact ⟨{ hclosed with }, fun hp => hne (hall ▸ hready hp)⟩
      · rename_i heq
        rw [hall, not_not] at heq
        exact ⟨{ hclosed with }, heq⟩
  | release =>
      cases h
      exact ⟨{ hphase.1 with go := rfl, arrived := hphase.2 }, Nat.zero_le _⟩
  | work done =>
      obtain ⟨hopen, hle⟩ := hphase
      simp only [step, Bsp.step, Bsp.target] at h
      split at h
      · rename_i hlt
        cases h
        refine ⟨{ hopen with counter := ?_ }, hlt⟩
        have := hopen.counter
        simp only at this ⊢
        omega
      · cases h
        obtain rfl : done = batch := by omega
        exact { hopen with }
  | awaitCompleted spins =>
      cases h
      split
      · exact { show Open p batch _ from hphase with }
      · rename_i hwait
        have hopen : Open p batch _ := hphase
        simp only at hwait
        refine ⟨{ hopen with }, fun hp => ?_⟩
        have hspins := hpatient hp
        simp only [patient, decide_eq_true_eq] at hspins
        have hle : words.completed ≤ Fintype.card ω := hopen.completed_le
        show words.completed = Fintype.card ω
        omega
  | disarm =>
      cases h
      exact ⟨⟨{ hphase.1 with mode := Nat.zero_ne_add_one 1 }, hphase.2⟩, rfl⟩
  | checkCompleted =>
      obtain ⟨⟨hopen, hcompleted⟩, hmode⟩ := hphase
      cases h
      split
      · rename_i hne
        exact ⟨⟨hopen.ok, hmode⟩, fun hp => absurd (hall ▸ hcompleted hp) hne, by simp⟩
      · rename_i heq
        rw [hall, not_not] at heq
        exact ⟨⟨{ hopen with }, heq⟩, hmode⟩
  | checkCounter =>
      obtain ⟨⟨hopen, hcompleted⟩, hmode⟩ := hphase
      cases h
      refine ⟨⟨hopen.ok, hmode⟩, fun hp => ?_, fun hone c => hopen.complete hcompleted ?_ c⟩
      · exact if_neg (by rw [not_not, hall]; exact hopen.counted hcompleted hp)
      · rw [ite_eq_right_iff] at hone
        rw [← hall]
        exact Decidable.of_not_not fun hne => absurd (hone hne) (by decide)
  | abort =>
      cases h
      exact ⟨⟨hphase.1.ok, rfl⟩, hphase.2⟩
  | abortRelease =>
      cases h
      exact ⟨hphase.1, fun hp => absurd hp hphase.2, by simp⟩
  | returned result => cases h

/-- The test gives up when an interrupt is refused; it may have been delivered all the same. -/
theorem Phase.refused {delivered : Bool} (hphase : Phase p s) (hp : ¬p)
    (h : step targets s (.refused delivered) = some s') : Phase p s' := by
  obtain ⟨words, bsp, aps⟩ := s
  cases bsp with
  | send rest =>
      obtain ⟨hclosed, -, hfresh⟩ := hphase
      cases rest with
      | nil => cases h
      | cons c rest =>
          cases h
          cases delivered with
          | false => exact ⟨{ hclosed with }, hp⟩
          | true => exact ⟨hclosed.interrupted (hfresh c List.mem_cons_self) .abort, hp⟩
  | _ => cases h

theorem Phase.step {act : Act ω} (hall : ∀ c, c ∈ targets) (hnodup : targets.Nodup) (hphase : Phase p s)
    (hpatient : p → patient s act = true) (h : step targets s act = some s') : Phase p s' := by
  cases act with
  | bsp =>
      refine hphase.bsp ?_ hnodup hpatient h
      rw [← List.toFinset_card_of_nodup hnodup, ← Finset.card_univ]
      congr 1
      ext c
      simp [hall c]
  | refused delivered => exact hphase.refused (fun hp => Bool.false_ne_true (hpatient hp)) h
  | ap c => exact hphase.ap hpatient h

theorem run_phase (hall : ∀ c, c ∈ targets) (hnodup : targets.Nodup)
    (hrun : run targets (start words) acts = some s) : Phase False s :=
  foldlM_keeps (fun _ _ _ hphase => hphase.step hall hnodup False.elim) (start_phase words) hrun

/-- **The barrier.** However the accesses interleave: as long as the test is armed, no CPU has incremented the counter
    before every CPU has arrived. -/
theorem increments_after_arrivals (hall : ∀ c, c ∈ targets) (hnodup : targets.Nodup)
    (hrun : run targets (start words) acts = some s) (hmode : s.words.mode = 1)
    (hincrements : (s.aps c).increments ≠ 0) (d : ω) : (s.aps d).arrivals = 1 := by
  have hphase := run_phase hall hnodup hrun
  obtain ⟨words, bsp, aps⟩ := s
  have hclosed {s : State ω} (hclosed : Closed False s) (h : (s.aps c).increments ≠ 0) : (s.aps d).arrivals = 1 :=
    absurd (hclosed.quiet c).1 h
  cases bsp with
  | arm stores => exact absurd (by rw [hphase.1 c]; rfl) hincrements
  | send rest => exact hclosed hphase.1 hincrements
  | awaitReady spins => exact hclosed hphase hincrements
  | checkReady => exact hclosed hphase.1 hincrements
  | abort => exact hclosed hphase.1 hincrements
  | release => exact hclosed hphase.1 hincrements
  | work done => exact hphase.1.all_arrived d
  | awaitCompleted spins => exact Open.all_arrived hphase d
  | disarm => exact hphase.1.all_arrived d
  | checkCompleted => exact hphase.1.1.all_arrived d
  | checkCounter => exact hphase.1.1.all_arrived d
  | abortRelease => exact absurd (hphase.1.2.symm.trans hmode) (by decide)
  | returned result => exact absurd (hphase.1.2.symm.trans hmode) (by decide)

/-- The whole test with one other CPU. -/
def pairActs : List (Act Unit) :=
  List.replicate 6 .bsp ++ List.replicate 5 (.ap ()) ++ List.replicate 4 .bsp ++ List.replicate 1005 (.ap ()) ++
    List.replicate 1005 .bsp

theorem increments_after_arrivals_pair : ∃ s, run [()] (start ⟨7, 2, 7, 7, 7⟩) (pairActs.take 22) = some s ∧
    s.words.mode = 1 ∧ (s.aps ()).increments = 5 ∧ (s.aps ()).arrivals = 1 := by
  have hrun : ((run [()] (start ⟨7, 2, 7, 7, 7⟩) (pairActs.take 22)).any fun s =>
      s.words.mode = 1 ∧ (s.aps ()).increments = 5) = true := by decide +kernel
  obtain ⟨s, hs, hend⟩ := (Option.any_eq_true ..).mp hrun
  obtain ⟨hmode, hincrements⟩ := of_decide_eq_true hend
  exact ⟨s, hs, hmode, hincrements,
    increments_after_arrivals (by decide) (by decide) hs hmode (c := ()) (by simp [hincrements]) ()⟩

/-- **A test that returns 1 has counted every CPU.** Each has arrived once, has made all its increments and has left
    the handler's test, with no interrupt pending that would let it touch the words again. -/
theorem returned_one (hall : ∀ c, c ∈ targets) (hnodup : targets.Nodup)
    (hrun : run targets (start words) acts = some s) (hreturned : s.bsp = .returned 1) (c : ω) :
    (s.aps c).Complete := by
  have hphase := run_phase hall hnodup hrun
  rw [Phase, hreturned] at hphase
  exact hphase.2.2 rfl c

theorem returned_one_pair : ∃ s, run [()] (start ⟨7, 2, 7, 7, 7⟩) pairActs = some s ∧ s.bsp = .returned 1 ∧
    (s.aps ()).Complete := by
  have hrun : ((run [()] (start ⟨7, 2, 7, 7, 7⟩) pairActs).any fun s => s.bsp = .returned 1) = true := by
    decide +kernel
  obtain ⟨s, hs, hend⟩ := (Option.any_eq_true ..).mp hrun
  have hreturned := of_decide_eq_true hend
  exact ⟨s, hs, hreturned, returned_one (by decide) (by decide) hs hreturned ()⟩

/-- **The test succeeds**, if no interrupt is refused and nobody runs out of patience. -/
theorem patient_returns_one (hall : ∀ c, c ∈ targets) (hnodup : targets.Nodup)
    (hrun : acts.foldlM (patientStep targets) (start words) = some s) {result : Nat}
    (hreturned : s.bsp = .returned result) : result = 1 := by
  have hkeeps (s : State ω) (act : Act ω) (s' : State ω) (hphase : Phase True s)
      (hstep : patientStep targets s act = some s') : Phase True s' := by
    obtain ⟨hpatient, hstep⟩ := (Option.ite_none_right_eq_some ..).mp hstep
    exact hphase.step hall hnodup (fun _ => hpatient) hstep
  have hphase := foldlM_keeps hkeeps (start_phase words) hrun
  rw [Phase, hreturned] at hphase
  exact hphase.2.1 trivial

theorem patient_returns_one_pair : ∃ s result, pairActs.foldlM (patientStep [()]) (start ⟨7, 2, 7, 7, 7⟩) = some s ∧
    s.bsp = .returned result ∧ result = 1 := by
  have hrun : ((pairActs.foldlM (patientStep [()]) (start ⟨7, 2, 7, 7, 7⟩)).any fun s => s.bsp = .returned 1) =
      true := by decide +kernel
  obtain ⟨s, hs, hend⟩ := (Option.any_eq_true ..).mp hrun
  have hreturned := of_decide_eq_true hend
  exact ⟨s, 1, hs, hreturned, patient_returns_one (by decide) (by decide) hs hreturned⟩

end Vnt.Os.SelfTest
