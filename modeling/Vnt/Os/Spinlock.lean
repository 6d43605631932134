import Mathlib.Algebra.GroupWithZero.Nat
import Vnt.Lib.CheckedInt

/-!
# `Os.Spinlock` — the lock of `kernel/sync.vnt`

CPUs that share one lock word and the counter of slot 313. A step is one access of one CPU to a shared word: the
exchange of a lock function, the load in the loop that watches the word, the load or the store of the counter. The
steps of the CPUs are interleaved in any order. Between two calls a CPU may call any of the three functions and, in
a critical section, increment the counter; it calls the release only in a critical section.
-/

namespace Vnt.Os

open Lib

/-- The shared words. -/
structure Shared where
  lock : Int64
  counter : Int64

/-- `spinlock_init` stores 0, as long as nobody else can see the word. -/
def spinlockInit (address : Int64) (shared : Shared) : Int64 × Shared :=
  if address = 0 then (0, shared) else (1, { shared with lock := 0 })

/-! ## One CPU -/

/-- The access at which a CPU stands. -/
inductive Point where
  | client
  /-- In `spinlock_try_acquire`, called by `spinlock_acquire` when `spinning`. -/
  | exchangeOne (spinning : Bool)
  /-- In the inner loop of `spinlock_acquire`. -/
  | observe
  /-- In `spinlock_release`. -/
  | exchangeZero
  | readCounter
  | writeCounter (value : Int64)
  /-- The increment has overflowed, and the CPU goes nowhere any more. -/
  | trapped
  deriving DecidableEq

/-- What the client does next. -/
inductive Call where
  | acquire
  | tryAcquire
  | release
  | increment
  deriving DecidableEq

/-- What a step shows; a release comes with the number of increments of its section. -/
inductive Event where
  | quiet
  | acquired (result : Int64)
  | tried (result : Int64)
  | released (increments : Nat) (result : Int64)
  deriving DecidableEq

/-- A CPU, and the increments of the critical section it is in. -/
structure Cpu where
  point : Point
  inSection? : Option Nat

def Cpu.holds (cpu : Cpu) : Bool := cpu.inSection?.isSome

/-- The beginning of a call: the point it comes to, or what it returns at once. -/
def Cpu.enter (cpu : Cpu) (address : Int64) : Call → Cpu × Event
  | .acquire => if address = 0 then (cpu, .acquired 0) else ({ cpu with point := .exchangeOne true }, .quiet)
  | .tryAcquire => if address = 0 then (cpu, .tried 0) else ({ cpu with point := .exchangeOne false }, .quiet)
  | .release => if address = 0 then (cpu, .released 0 0) else ({ cpu with point := .exchangeZero }, .quiet)
  | .increment => ({ cpu with point := .readCounter }, .quiet)

/-- A client releases and increments inside a critical section only. -/
def Cpu.mayCall (cpu : Cpu) : Call → Bool
  | .acquire | .tryAcquire => true
  | .release | .increment => cpu.holds

/-- The access at which a CPU stands, and what the code makes of it. -/
def Cpu.access (cpu : Cpu) (shared : Shared) : Option (Shared × Cpu × Event) :=
  match cpu.point with
  | .client | .trapped => none
  | .exchangeOne spinning =>
      let previous := shared.lock
      let shared := { shared with lock := 1 }
      if previous = 0 then
        some (shared, ⟨.client, some 0⟩, if spinning then .acquired 1 else .tried 1)
      else if spinning then some (shared, { cpu with point := .observe }, .quiet)
      else some (shared, { cpu with point := .client }, .tried 0)
  | .observe =>
      let observed := shared.lock
      if observed ≠ 0 then some (shared, cpu, .quiet)
      else some (shared, { cpu with point := .exchangeOne true }, .quiet)
  | .exchangeZero =>
      let previous := shared.lock
      some ({ shared with lock := 0 }, ⟨.client, none⟩,
        .released (cpu.inSection?.getD 0) (if previous = 1 then 1 else 0))
  | .readCounter =>
      match checkedAdd shared.counter 1 with
      | some value => some (shared, { cpu with point := .writeCounter value }, .quiet)
      | none => some (shared, { cpu with point := .trapped }, .quiet)
  | .writeCounter value =>
      some ({ shared with counter := value }, ⟨.client, cpu.inSection?.map (· + 1)⟩, .quiet)

/-! ## All CPUs -/

/-- The shared words, and the CPUs. -/
structure SpinState (ω : Type*) where
  shared : Shared
  cpus : ω → Cpu

/-- A step: a CPU's client makes a call, or a CPU makes its access. -/
inductive SpinAct (ω : Type*) where
  | call (cpu : ω) (call : Call)
  | access (cpu : ω)

section

variable {ω : Type*}

/-- Every CPU between two calls, outside any critical section. -/
def SpinState.start (shared : Shared) : SpinState ω := ⟨shared, fun _ => ⟨.client, none⟩⟩

variable [DecidableEq ω]

def SpinState.step (address : Int64) (s : SpinState ω) : SpinAct ω → Option (SpinState ω × Event)
  | .call c call =>
      if (s.cpus c).point = .client ∧ (s.cpus c).mayCall call = true then
        let (cpu, event) := (s.cpus c).enter address call
        some (⟨s.shared, Function.update s.cpus c cpu⟩, event)
      else none
  | .access c => ((s.cpus c).access s.shared).map fun (shared, cpu, event) =>
      (⟨shared, Function.update s.cpus c cpu⟩, event)

/-- A run, with what its steps show. -/
inductive SpinRuns (address : Int64) (s : SpinState ω) : List (SpinAct ω × Event) → SpinState ω → Prop where
  | nil : SpinRuns address s [] s
  | snoc {s' s'' : SpinState ω} {trace : List (SpinAct ω × Event)} {event : Event} (act : SpinAct ω) :
      SpinRuns address s trace s' → s'.step address act = some (s'', event) →
        SpinRuns address s (trace ++ [(act, event)]) s''

end

/-- The increments of the critical section that a step completes. -/
def Event.increments : Event → Nat
  | .released increments _ => increments
  | _ => 0

/-- Whether a step completes a critical section. -/
def Event.completes : Event → Bool
  | .released _ _ => true
  | _ => false

/-! ## What a step can do -/

section

variable {ω : Type*} [DecidableEq ω] {address : Int64} {s s' : SpinState ω} {act : SpinAct ω} {event : Event}

/-- The change a step makes to the CPU it belongs to, on a lock word that has an address. -/
inductive CpuMove (shared : Shared) (cpu : Cpu) : Shared → Cpu → Event → Prop where
  | call (point : Point) :
      cpu.point = .client → (point = .exchangeOne true ∨ point = .exchangeOne false ∨
        cpu.holds = true ∧ (point = .exchangeZero ∨ point = .readCounter)) →
      CpuMove shared cpu shared { cpu with point := point } .quiet
  | win (event : Event) :
      shared.lock = 0 → (event = .acquired 1 ∨ event = .tried 1) →
      CpuMove shared cpu { shared with lock := 1 } ⟨.client, some 0⟩ event
  | lose (point : Point) (event : Event) :
      shared.lock ≠ 0 → (point = .observe ∧ event = .quiet ∨ point = .client ∧ event = .tried 0) →
      CpuMove shared cpu { shared with lock := 1 } { cpu with point := point } event
  | watch (point : Point) :
      (point = .observe ∨ point = .exchangeOne true) →
      CpuMove shared cpu shared { cpu with point := point } .quiet
  | release :
      cpu.point = .exchangeZero →
      CpuMove shared cpu { shared with lock := 0 } ⟨.client, none⟩
        (.released (cpu.inSection?.getD 0) (if shared.lock = 1 then 1 else 0))
  | read (point : Point) :
      cpu.point = .readCounter →
      (point = .trapped ∨ ∃ value, point = .writeCounter value ∧ checkedAdd shared.counter 1 = some value) →
      CpuMove shared cpu shared { cpu with point := point } .quiet
  | write (value : Int64) :
      cpu.point = .writeCounter value →
      CpuMove shared cpu { shared with counter := value } ⟨.client, cpu.inSection?.map (· + 1)⟩ .quiet

theorem enter_move (haddress : address ≠ 0) {cpu cpu' : Cpu} {call : Call} (shared : Shared)
    (hclient : cpu.point = .client) (hmay : cpu.mayCall call = true)
    (h : cpu.enter address call = (cpu', event)) : CpuMove shared cpu shared cpu' event := by
  cases call with
  | acquire =>
      rw [Cpu.enter, if_neg haddress] at h
      cases h
      exact .call _ hclient (.inl rfl)
  | tryAcquire =>
      rw [Cpu.enter, if_neg haddress] at h
      cases h
      exact .call _ hclient (.inr (.inl rfl))
  | release =>
      rw [Cpu.enter, if_neg haddress] at h
      cases h
      exact .call _ hclient (.inr (.inr ⟨hmay, .inl rfl⟩))
  | increment =>
      cases h
      exact .call _ hclient (.inr (.inr ⟨hmay, .inr rfl⟩))

theorem access_move {shared shared' : Shared} {cpu cpu' : Cpu}
    (h : cpu.access shared = some (shared', cpu', event)) : CpuMove shared cpu shared' cpu' event := by
  unfold Cpu.access at h
  cases hpoint : cpu.point with
  | client =>
      rw [hpoint] at h
      cases h
  | trapped =>
      rw [hpoint] at h
      cases h
  | exchangeOne spinning =>
      simp only [hpoint] at h
      by_cases hfree : shared.lock = 0
      · rw [if_pos hfree] at h
        cases h
        refine .win _ hfree ?_
        cases spinning
        · exact .inr rfl
        · exact .inl rfl
      · rw [if_neg hfree] at h
        cases spinning
        · cases h
          exact .lose _ _ hfree (.inr ⟨rfl, rfl⟩)
        · cases h
          exact .lose _ _ hfree (.inl ⟨rfl, rfl⟩)
  | observe =>
      simp only [hpoint] at h
      by_cases hfree : shared.lock ≠ 0
      · rw [if_pos hfree] at h
        cases h
        have hstay : cpu = { cpu with point := .observe } := by rw [← hpoint]
        rw [hstay]
        exact .watch _ (.inl rfl)
      · rw [if_neg hfree] at h
        cases h
        exact .watch _ (.inr rfl)
  | exchangeZero =>
      simp only [hpoint] at h
      cases h
      exact .release hpoint
  | readCounter =>
      simp only [hpoint] at h
      cases hadd : checkedAdd shared.counter 1 with
      | none =>
          rw [hadd] at h
          cases h
          exact .read _ hpoint (.inl rfl)
      | some value =>
          rw [hadd] at h
          cases h
          exact .read _ hpoint (.inr ⟨value, rfl, hadd⟩)
  | writeCounter value =>
      simp only [hpoint] at h
      cases h
      exact .write value hpoint

/-- A step is a move of one CPU, and the others stay where they are. -/
theorem step_cases (haddress : address ≠ 0) (h : s.step address act = some (s', event)) :
    ∃ c, CpuMove s.shared (s.cpus c) s'.shared (s'.cpus c) event ∧ ∀ d ≠ c, s'.cpus d = s.cpus d := by
  cases act with
  | call c call =>
      simp only [SpinState.step] at h
      split at h
      · rename_i hcall
        cases h
        refine ⟨c, ?_, fun d hd => Function.update_of_ne hd _ _⟩
        dsimp only
        rw [Function.update_self]
        exact enter_move haddress _ hcall.1 hcall.2 rfl
      · cases h
  | access c =>
      simp only [SpinState.step, Option.map_eq_some_iff] at h
      obtain ⟨⟨shared, cpu, event'⟩, haccess, heq⟩ := h
      cases heq
      refine ⟨c, ?_, fun d hd => Function.update_of_ne hd _ _⟩
      dsimp only
      rw [Function.update_self]
      exact access_move haccess

end

/-!
## Mutual exclusion by the lock word

What the lock is for: it has an owner or none, the owner alone is in a critical section, and the counter is what the
completed sections have made of it, plus what the owner has stored so far. `Guards` relates a state of the CPUs to its
owner; every step keeps it, so it holds in every state of every run.
-/

variable {ω : Type*} {address : Int64} {s s' : SpinState ω} {act : SpinAct ω} {event : Event} {start : Int}
  {done : Nat} {owner : Option ω}

/-- The points that are reached inside a critical section only. -/
def Point.guarded : Point → Bool
  | .exchangeZero | .readCounter | .writeCounter _ => true
  | .client | .exchangeOne _ | .observe | .trapped => false

/-- The owner of the lock, after sections with `done` increments in all. -/
structure Guards (start : Int) (done : Nat) (s : SpinState ω) (owner : Option ω) : Prop where
  holds : ∀ c, (s.cpus c).holds = true ↔ owner = some c
  free : owner = none → s.shared.lock = 0
  taken : ∀ c, owner = some c → s.shared.lock = 1
  guarded : ∀ c, (s.cpus c).point.guarded = true → owner = some c
  writing : ∀ c value, (s.cpus c).point = .writeCounter value → value.toInt = s.shared.counter.toInt + 1
  counted : owner = none → s.shared.counter.toInt = start + done
  counting : ∀ c n, (s.cpus c).inSection? = some n → s.shared.counter.toInt = start + done + n

theorem Guards.entry (shared : Shared) (hlock : shared.lock = 0) :
    Guards shared.counter.toInt 0 (SpinState.start shared : SpinState ω) none where
  holds := by
    intro c
    exact ⟨nofun, nofun⟩
  free _ := hlock
  taken := nofun
  guarded := nofun
  writing := nofun
  counted _ := by simp [SpinState.start]
  counting := nofun

/-- The value that an increment stores. -/
theorem checkedAdd_one {x value : Int64} (h : checkedAdd x 1 = some value) : value.toInt = x.toInt + 1 := by
  unfold checkedAdd checked at h
  split at h
  · rename_i hrange
    cases h
    exact Int64.toInt_ofInt_of_le hrange.1 (Int.lt_add_one_of_le hrange.2)
  · cases h

namespace Guards

theorem owner_of_free (h : Guards start done s owner) (hlock : s.shared.lock = 0) : owner = none := by
  cases howner : owner with
  | none => rfl
  | some c =>
      have hone := h.taken c howner
      rw [hlock] at hone
      exact absurd hone (by decide)

theorem owner_of_section (h : Guards start done s owner) {c : ω} {n : Nat} (hc : (s.cpus c).inSection? = some n) :
    owner = some c := (h.holds c).mp (by rw [Cpu.holds, hc]; rfl)

/-- A CPU moves without a change of its section, and the shared words stay. -/
theorem moved (h : Guards start done s owner) {c : ω} (hshared : s'.shared = s.shared)
    (hsection : (s'.cpus c).inSection? = (s.cpus c).inSection?) (hother : ∀ d ≠ c, s'.cpus d = s.cpus d)
    (hguarded : (s'.cpus c).point.guarded = true → owner = some c)
    (hwriting : ∀ value, (s'.cpus c).point = .writeCounter value → value.toInt = s.shared.counter.toInt + 1) :
    Guards start done s' owner := by
  have hsame : ∀ d, (s'.cpus d).inSection? = (s.cpus d).inSection? := by
    intro d
    by_cases hd : d = c
    · rw [hd, hsection]
    · rw [hother d hd]
  constructor
  · intro d
    rw [Cpu.holds, hsame]
    exact h.holds d
  · rw [hshared]
    exact h.free
  · rw [hshared]
    exact h.taken
  · intro d hd
    by_cases hdc : d = c
    · rw [hdc] at hd ⊢
      exact hguarded hd
    · rw [hother d hdc] at hd
      exact h.guarded d hd
  · intro d value hd
    rw [hshared]
    by_cases hdc : d = c
    · rw [hdc] at hd
      exact hwriting value hd
    · rw [hother d hdc] at hd
      exact h.writing d value hd
  · rw [hshared]
    exact h.counted
  · intro d n hd
    rw [hsame] at hd
    rw [hshared]
    exact h.counting d n hd

/-- The CPUs beside the owner have nothing to do with the lock. -/
theorem others (h : Guards start done s owner) {c d : ω} (hc : ∀ e, owner = some e → e = c) (hdc : d ≠ c) :
    (s.cpus d).inSection? = none ∧ (s.cpus d).point.guarded = false := by
  constructor
  · cases hd : (s.cpus d).inSection? with
    | none => rfl
    | some n => exact absurd (hc d (h.owner_of_section hd)) hdc
  · by_contra hd
    exact hdc (hc d (h.guarded d (by simpa using hd)))

/-- The CPU that may change the lock does, and is back at its client. -/
theorem replaced (h : Guards start done s owner) {c : ω} {owner' : Option ω} {done' : Nat}
    (hother : ∀ d ≠ c, s'.cpus d = s.cpus d) (hclient : (s'.cpus c).point = .client)
    (hold : ∀ e, owner = some e → e = c) (hnew : ∀ e, owner' = some e → e = c)
    (hholds : (s'.cpus c).holds = true ↔ owner' = some c) (hfree : owner' = none → s'.shared.lock = 0)
    (htaken : owner' = some c → s'.shared.lock = 1)
    (hcounted : owner' = none → s'.shared.counter.toInt = start + done')
    (hcounting : ∀ n, (s'.cpus c).inSection? = some n → s'.shared.counter.toInt = start + done' + n) :
    Guards start done' s' owner' := by
  have hrest : ∀ d ≠ c, (s'.cpus d).inSection? = none ∧ (s'.cpus d).point.guarded = false := by
    intro d hd
    rw [hother d hd]
    exact h.others hold hd
  have hpoint : ∀ d, (s'.cpus d).point.guarded = false := by
    intro d
    by_cases hdc : d = c
    · rw [hdc, hclient]
      rfl
    · exact (hrest d hdc).2
  constructor
  · intro d
    by_cases hdc : d = c
    · rw [hdc]
      exact hholds
    · rw [Cpu.holds, (hrest d hdc).1]
      exact ⟨nofun, fun hd => absurd (hnew d hd) hdc⟩
  · exact hfree
  · intro d hd
    have hdc := hnew d hd
    rw [hdc] at hd
    exact htaken hd
  · intro d hd
    rw [hpoint d] at hd
    cases hd
  · intro d value hd
    have hguarded := hpoint d
    rw [hd] at hguarded
    cases hguarded
  · exact hcounted
  · intro d n hd
    by_cases hdc : d = c
    · rw [hdc] at hd
      exact hcounting n hd
    · rw [(hrest d hdc).1] at hd
      cases hd

variable [DecidableEq ω]

/-- **One step** keeps the lock in order: it has an owner or none, a release returns 1, an acquire returns 1, and an
    attempt fails only when there is an owner. -/
theorem step (h : Guards start done s owner) (haddress : address ≠ 0)
    (hstep : s.step address act = some (s', event)) :
    (∃ owner', Guards start (done + event.increments) s' owner') ∧
      (∀ n result, event = .released n result → result = 1) ∧ (∀ result, event = .acquired result → result = 1) ∧
      (event = .tried 0 → ∃ c, owner = some c) := by
  obtain ⟨c, hmove, hother⟩ := step_cases haddress hstep
  generalize hshared : s'.shared = shared, hcpu : s'.cpus c = cpu at hmove
  cases hmove with
  | call point hclient hpoint =>
      refine ⟨⟨owner, h.moved hshared (by rw [hcpu]) hother (fun hg => ?_) fun value hv => ?_⟩, nofun, nofun, nofun⟩
      · rw [hcpu] at hg
        rcases hpoint with rfl | rfl | ⟨hin, -⟩
        · cases hg
        · cases hg
        · exact (h.holds c).mp hin
      · rw [hcpu] at hv
        rcases hpoint with rfl | rfl | ⟨-, rfl | rfl⟩ <;> cases hv
  | win event hfree hevent =>
      have hnone := h.owner_of_free hfree
      have hzero : event.increments = 0 := by rcases hevent with rfl | rfl <;> rfl
      refine ⟨⟨some c, ?_⟩, ?_, ?_, ?_⟩
      · rw [hzero]
        apply h.replaced hother (by rw [hcpu]) (c := c)
        · intro e he
          rw [hnone] at he
          cases he
        · intro e he
          exact (Option.some.inj he).symm
        · rw [hcpu]
          exact ⟨fun _ => rfl, fun _ => rfl⟩
        · exact nofun
        · intro _
          rw [hshared]
        · exact nofun
        · intro n hn
          rw [hcpu] at hn
          cases hn
          rw [hshared, h.counted hnone]
          simp
      · rintro n result rfl
        rcases hevent with hevent | hevent <;> cases hevent
      · rintro result rfl
        rcases hevent with hevent | hevent <;> cases hevent
        rfl
      · rintro rfl
        rcases hevent with hevent | hevent
        · cases hevent
        · exact absurd (Event.tried.inj hevent) (by decide)
  | lose point event hbusy hlose =>
      obtain ⟨d, hd⟩ : ∃ d, owner = some d := by
        cases howner : owner with
        | none => exact absurd (h.free howner) hbusy
        | some d => exact ⟨d, rfl⟩
      have hsame : s'.shared = s.shared := by rw [hshared, ← h.taken d hd]
      have hkeep : point.guarded = false ∧ event.increments = 0 := by
        rcases hlose with ⟨rfl, rfl⟩ | ⟨rfl, rfl⟩
        · exact ⟨rfl, rfl⟩
        · exact ⟨rfl, rfl⟩
      rw [hkeep.2]
      refine ⟨⟨owner, h.moved hsame (by rw [hcpu]) hother (fun hg => ?_) fun value hv => ?_⟩, ?_, ?_, fun _ => ⟨d, hd⟩⟩
      · rw [hcpu, hkeep.1] at hg
        cases hg
      · rw [hcpu] at hv
        have hguarded := hkeep.1
        rw [show point = .writeCounter value from hv] at hguarded
        cases hguarded
      · rintro n result rfl
        rcases hlose with ⟨-, hevent⟩ | ⟨-, hevent⟩ <;> cases hevent
      · rintro result rfl
        rcases hlose with ⟨-, hevent⟩ | ⟨-, hevent⟩ <;> cases hevent
  | watch point hpoint =>
      refine ⟨⟨owner, h.moved hshared (by rw [hcpu]) hother (fun hg => ?_) fun value hv => ?_⟩, nofun, nofun, nofun⟩
      · rw [hcpu] at hg
        rcases hpoint with rfl | rfl <;> cases hg
      · rw [hcpu] at hv
        rcases hpoint with rfl | rfl <;> cases hv
  | release hpoint =>
      have howner := h.guarded c (by rw [hpoint]; rfl)
      obtain ⟨n, hn⟩ := Option.isSome_iff_exists.mp ((h.holds c).mpr howner)
      refine ⟨⟨none, ?_⟩, ?_, nofun, nofun⟩
      · apply h.replaced hother (by rw [hcpu]) (c := c)
        · intro e he
          rw [howner] at he
          exact (Option.some.inj he).symm
        · exact nofun
        · rw [hcpu]
          exact ⟨nofun, nofun⟩
        · intro _
          rw [hshared]
        · exact nofun
        · intro _
          have hcount := h.counting c n hn
          rw [hshared, hn]
          simp only [Event.increments, Option.getD_some]
          push_cast
          omega
        · intro m hm
          rw [hcpu] at hm
          cases hm
      · intro m result hevent
        rw [h.taken c howner] at hevent
        exact (Event.released.inj hevent).2.symm
  | read point hpoint hread =>
      have howner := h.guarded c (by rw [hpoint]; rfl)
      refine ⟨⟨owner, h.moved hshared (by rw [hcpu]) hother (fun _ => howner) fun value hv => ?_⟩, nofun, nofun, nofun⟩
      rw [hcpu] at hv
      rcases hread with rfl | ⟨v, rfl, hadd⟩
      · cases hv
      · cases hv
        exact checkedAdd_one hadd
  | write value hpoint =>
      have howner := h.guarded c (by rw [hpoint]; rfl)
      obtain ⟨n, hn⟩ := Option.isSome_iff_exists.mp ((h.holds c).mpr howner)
      have honly : ∀ e, owner = some e → e = c := by
        intro e he
        rw [howner] at he
        exact (Option.some.inj he).symm
      refine ⟨⟨owner, ?_⟩, nofun, nofun, nofun⟩
      apply h.replaced hother (by rw [hcpu]) honly honly
      · rw [hcpu, Cpu.holds, hn, howner]
        exact ⟨fun _ => rfl, fun _ => rfl⟩
      · intro hnone
        rw [howner] at hnone
        cases hnone
      · rw [hshared]
        exact h.taken c
      · intro hnone
        rw [howner] at hnone
        cases hnone
      · intro m hm
        rw [hcpu, hn] at hm
        cases hm
        have hcount := h.counting c n hn
        have hvalue := h.writing c value hpoint
        rw [hshared]
        simp only [Event.increments]
        push_cast
        omega

end Guards

/-! ## Runs -/

section

variable [DecidableEq ω] {shared : Shared} {trace : List (SpinAct ω × Event)}

/-- The increments of the completed sections. -/
def increments (trace : List (SpinAct ω × Event)) : Nat := (trace.map fun p => p.2.increments).sum

/-- The number of completed sections. -/
def sections (trace : List (SpinAct ω × Event)) : Nat := trace.countP fun p => p.2.completes

/-- Every completed section has made one increment. -/
def OneEach (trace : List (SpinAct ω × Event)) : Prop := ∀ p ∈ trace, ∀ n result, p.2 = .released n result → n = 1

omit [DecidableEq ω] in
theorem increments_eq_sections (h : OneEach trace) : increments trace = sections trace := by
  induction trace with
  | nil => rfl
  | cons p trace ih =>
      have hrest := ih fun q hq => h q (List.mem_cons_of_mem _ hq)
      have hp := h p List.mem_cons_self
      unfold increments sections at *
      rw [List.map_cons, List.sum_cons, List.countP_cons, hrest]
      cases hevent : p.2 with
      | quiet => simp [Event.increments, Event.completes]
      | acquired result => simp [Event.increments, Event.completes]
      | tried result => simp [Event.increments, Event.completes]
      | released n result =>
          rw [hp n result hevent]
          simp only [Event.increments, Event.completes, if_true]
          omega

theorem SpinRuns.guards (haddress : address ≠ 0)
    (hrun : SpinRuns address (.start (spinlockInit address shared).2) trace s) :
    ∃ owner, Guards shared.counter.toInt (increments trace) s owner := by
  induction hrun with
  | nil =>
      have hinit : (spinlockInit address shared).2 = { shared with lock := 0 } := by
        rw [spinlockInit, if_neg haddress]
      rw [hinit]
      exact ⟨none, Guards.entry { shared with lock := 0 } rfl⟩
  | snoc _ _ hstep ih =>
      obtain ⟨owner, howner⟩ := ih
      have hnext := (howner.step haddress hstep).1
      unfold increments at *
      rw [List.map_append, List.sum_append]
      simpa using hnext

/-- With the lock free the counter has grown by the number of completed sections. -/
theorem spinlock_counted (haddress : address ≠ 0)
    (hrun : SpinRuns address (.start (spinlockInit address shared).2) trace s) (hlock : s.shared.lock = 0)
    (hone : OneEach trace) : s.shared.counter.toInt = shared.counter.toInt + sections trace := by
  obtain ⟨owner, h⟩ := hrun.guards haddress
  rw [← increments_eq_sections hone]
  exact h.counted (h.owner_of_free hlock)

/-- **The lock excludes.** After any run of any CPUs at most one is in a critical section, and the word is 0 exactly
    when none is; whatever step comes next, a release and an acquire return 1, and an attempt fails only while some
    CPU holds the lock; and with the lock free the counter has grown by the increments of the completed sections,
    that is by their number when each makes one. -/
theorem spinlock_excludes (haddress : address ≠ 0)
    (hrun : SpinRuns address (.start (spinlockInit address shared).2) trace s) :
    (∀ c d, (s.cpus c).holds = true → (s.cpus d).holds = true → c = d) ∧
    (s.shared.lock = 0 ↔ ∀ c, (s.cpus c).holds = false) ∧
    (∀ act event s', s.step address act = some (s', event) →
      (∀ n result, event = .released n result → result = 1) ∧ (∀ result, event = .acquired result → result = 1) ∧
      (event = .tried 0 → ∃ c, (s.cpus c).holds = true)) ∧
    (s.shared.lock = 0 → s.shared.counter.toInt = shared.counter.toInt + increments trace) ∧
    (s.shared.lock = 0 → OneEach trace → s.shared.counter.toInt = shared.counter.toInt + sections trace) := by
  obtain ⟨owner, h⟩ := hrun.guards haddress
  have hfree : s.shared.lock = 0 → s.shared.counter.toInt = shared.counter.toInt + increments trace := fun hlock =>
    h.counted (h.owner_of_free hlock)
  refine ⟨fun c d hc hd => ?_, ⟨fun hlock c => ?_, fun hnone => ?_⟩, fun act event s' hstep => ?_, hfree,
    spinlock_counted haddress hrun⟩
  · have hboth := ((h.holds c).mp hc).symm.trans ((h.holds d).mp hd)
    exact Option.some.inj hboth
  · by_contra hc
    have howner := (h.holds c).mp (by simpa using hc)
    rw [h.owner_of_free hlock] at howner
    cases howner
  · apply h.free
    cases howner : owner with
    | none => rfl
    | some c =>
        have hc := (h.holds c).mpr howner
        rw [hnone c] at hc
        cases hc
  · obtain ⟨-, hrelease, hacquire, htried⟩ := h.step haddress hstep
    refine ⟨hrelease, hacquire, fun hevent => ?_⟩
    obtain ⟨c, hc⟩ := htried hevent
    exact ⟨c, (h.holds c).mpr hc⟩

/-- A run in which a second CPU fails while the first increments. -/
def contended : List (SpinAct Bool × Event) :=
  [(.call true .acquire, .quiet), (.access true, .acquired 1), (.call false .tryAcquire, .quiet),
    (.call true .increment, .quiet), (.access true, .quiet), (.access false, .tried 0), (.access true, .quiet),
    (.call true .release, .quiet), (.access true, .released 1 1)]

theorem contended_excludes : ∃ s : SpinState Bool,
    SpinRuns 8 (.start (spinlockInit 8 ⟨0, 41⟩).2) contended s ∧ s.shared.lock = 0 ∧
    s.shared.counter.toInt = 41 + sections contended := by
  have hcall := SpinRuns.snoc (.call true .acquire)
    (@SpinRuns.nil Bool _ 8 (.start (spinlockInit 8 ⟨0, 41⟩).2)) rfl
  have hwon := SpinRuns.snoc (.call true .increment)
    (SpinRuns.snoc (.call false .tryAcquire) (SpinRuns.snoc (.access true) hcall rfl) rfl) rfl
  have hlost := SpinRuns.snoc (.access false) (SpinRuns.snoc (.access true) hwon rfl) rfl
  have hrun := SpinRuns.snoc (.access true)
    (SpinRuns.snoc (.call true .release) (SpinRuns.snoc (.access true) hlost rfl) rfl) rfl
  have hone : OneEach contended := by
    intro p hp n result he
    simp only [contended, List.mem_cons, List.not_mem_nil, or_false] at hp
    rcases hp with rfl | rfl | rfl | rfl | rfl | rfl | rfl | rfl | rfl <;> cases he
    rfl
  refine ⟨_, hrun, rfl, ?_⟩
  exact (spinlock_excludes (by decide) hrun).2.2.2.2 rfl hone

end

end Vnt.Os
