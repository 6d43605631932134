import Vnt.Cfg.Assigned
import Vnt.Ir.Guarded

/-!
# `Cfg.GuardedRun` — running code whose uses are assigned

Execution follows the structured runs: whatever a sequence has executed so far is the event sequence of a run
of it, so if every such run uses only what is assigned, execution reads nothing unassigned. Loops and calls add
the two inductions on the clock.
-/

namespace Vnt

open Lib

variable {H V : Type} {C : String × List String → Prop} {R : HostRefs H V} {ctx : Ctx H V}

/-- Calls keep the invariant, whatever the caller knows to be assigned. -/
def CallsYield (C : String × List String → Prop) (R : HostRefs H V)
    (call : String → List (Value V) → M H V (Value V)) : Prop :=
  ∀ f args (A : Addr → Prop), (∀ a, Refer R args a → A a) → Yields C R (Value.Refers R) A (call f args)

/-! ## Expressions -/

/-- The computation yields under every set of addresses above `A`. -/
def Stable {α : Type} (C : String × List String → Prop) (R : HostRefs H V) (refs : α → Addr → Prop)
    (A : Addr → Prop) (m : M H V α) : Prop := ∀ A', (∀ a, A a → A' a) → Yields C R refs A' m

theorem yields_seqAll {A : Addr → Prop} {ms : List (M H V (Value V))}
    (hms : ∀ m ∈ ms, Stable C R (Value.Refers R) A m) : Stable C R (Refer R) A (seqAll ms) := by
  induction ms with
  | nil =>
      intro A' _
      refine Yields.pure ?_
      rintro a ⟨v, hv, -⟩
      cases hv
  | cons m ms ih =>
      intro A' hA
      refine (hms m List.mem_cons_self A' hA).bind fun v => ?_
      refine (ih (fun m' hm' => hms m' (List.mem_cons_of_mem m hm')) _ fun a ha => .inl (hA a ha)).bind fun vs => ?_
      refine Yields.pure ?_
      rintro a ⟨w, hw, hr⟩
      rcases List.mem_cons.mp hw with rfl | hw
      · exact .inl (.inr hr)
      · exact .inr ⟨w, hw, hr⟩

theorem yields_pushAll (laws : HostLaws ctx.host R) {A : Addr → Prop} {ms : List (M H V (Value V))}
    (hms : ∀ m ∈ ms, Stable C R (Value.Refers R) A m) : ∀ {array : Value V} {A' : Addr → Prop},
      (∀ a, A a → A' a) → (∀ a, array.Refers R a → A' a) →
      Yields C R (Value.Refers R) A' (pushAll ctx.host ms array) := by
  induction ms with
  | nil => intro array A' _ harray; exact Yields.pure harray
  | cons m ms ih =>
      intro array A' hA harray
      refine (hms m List.mem_cons_self A' hA).bind fun v => ?_
      refine (Yields.liftHost (laws.arrayPush array v) ?_).bind fun array' => ?_
      · rintro a ⟨w, hw, hr⟩
        simp only [List.mem_cons, List.not_mem_nil, or_false] at hw
        rcases hw with rfl | rfl
        · exact .inl (harray a hr)
        · exact .inr hr
      · exact ih (fun m' hm' => hms m' (List.mem_cons_of_mem m hm')) (fun a ha => .inl (.inl (hA a ha)))
          fun a ha => .inr ha

theorem yields_callValue (laws : HostLaws ctx.host R) (hcall : CallsYield C R ctx.call) {A : Addr → Prop}
    {name : String} {args : List (M H V (Value V))}
    (hargs : ∀ m ∈ args, Stable C R (Value.Refers R) A m) :
    Yields C R (Value.Refers R) A (callValue ctx name args) := by
  have apply : ∀ {f : List (Value V) → M H V (Value V)},
      (∀ vs (A' : Addr → Prop), (∀ a, Refer R vs a → A' a) → Yields C R (Value.Refers R) A' (f vs)) →
      Yields C R (Value.Refers R) A (applyCall name f args) := by
    intro f hf
    refine (yields_seqAll hargs A fun _ ha => ha).bind fun vs => ?_
    refine Yields.record.bind fun _ => ?_
    exact hf vs _ fun a ha => .inl (.inr ha)
  unfold callValue
  split
  · rename_i f hf
    exact apply fun vs A' hA => Yields.ofStorage (laws.special name f hf vs) hA
  · split
    · refine Yields.liftHost (laws.structNew name) ?_
      rintro a ⟨v, hv, -⟩
      cases hv
    · split
      · rename_i f hf
        exact apply fun vs A' hA => Yields.ofStorage (laws.builtin name f hf vs) hA
      · exact apply fun vs A' hA => hcall name vs A' hA

theorem yields_first {α : Type} {refs : α → Addr → Prop} {A : Addr → Prop} {ms : List (M H V α)}
    (hms : ∀ m ∈ ms, Stable C R refs A m) : Stable C R refs A (first ms) :=
  fun A' hA => Yields.first fun m hm => hms m hm A' hA

/-- An expression reads only the variables it mentions, and storage it has a reference to. -/
theorem yields_evals (laws : HostLaws ctx.host R) (hcall : CallsYield C R ctx.call) (h : Hir) :
    ∀ {A : Addr → Prop}, (∀ x ∈ collectExpressionReads h, A (ctx.addr x)) →
      ∀ m ∈ evals ctx h, Stable C R (Value.Refers R) A m := by
  induction h with
  | nil => intro A _ m hm; cases hm
  | leaf i op n hn =>
      intro A hA m hm
      cases op with
      | «variable» x =>
          simp only [collectExpressionReads, List.forall_mem_cons] at hA
          rcases List.mem_cons.mp hm with rfl | hm
          · exact fun A' hA' => Yields.readVar (hA' _ hA.1)
          · exact hn hA.2 m hm
      | string text =>
          rcases List.mem_cons.mp hm with rfl | hm
          · refine fun A' _ => Yields.liftHost (laws.string text) ?_
            rintro a ⟨v, hv, -⟩
            cases hv
          · exact hn hA m hm
      | _ =>
          rcases List.mem_cons.mp hm with rfl | hm
          · first
              | exact fun A' _ => Yields.pure (fun _ h => h.elim)
              | exact fun A' _ => Yields.throw
          · exact hn hA m hm
  | one i op a n ha hn =>
      intro A hA m hm
      simp only [collectExpressionReads, List.forall_mem_append] at hA
      rcases List.mem_cons.mp hm with rfl | hm
      · have has := ha hA.1
        intro A' hA'
        have has' : ∀ m ∈ evals ctx a, Stable C R (Value.Refers R) A' m :=
          fun m hm A'' hA'' => has m hm A'' fun b hb => hA'' b (hA' b hb)
        cases op with
        | array =>
            refine (Yields.liftHost laws.arrayNew ?_).bind fun array => ?_
            · rintro b ⟨v, hv, -⟩
              cases hv
            · exact yields_pushAll laws has' (fun b hb => .inl hb) fun b hb => .inr hb
        | call f => exact yields_callValue laws hcall has'
        | member name =>
            refine (yields_first has' A' fun _ hb => hb).bind fun o => Yields.liftHost (laws.objectGet o name) ?_
            rintro b ⟨v, hv, hr⟩
            rw [List.mem_singleton.mp hv] at hr
            exact .inr hr
        | unary u =>
            cases u with
            | reference =>
                show Yields C R (Value.Refers R) A' (reference ctx a)
                unfold reference
                split
                · refine Yields.pure fun b hb => ?_
                  cases hb
                  simp only [collectExpressionReads, List.forall_mem_cons] at hA
                  exact hA' _ hA.1.1
                · exact Yields.throw
            | dereference =>
                exact (yields_first has' A' fun _ hb => hb).bind fun v => Yields.deref fun b hb => .inr hb
            | _ =>
                refine (yields_first has' A' fun _ hb => hb).bind fun v => Yields.unaryValue laws ?_
                rintro b ⟨w, hw, hr⟩
                rw [List.mem_singleton.mp hw] at hr
                exact .inr hr
        | _ => exact Yields.throw
      · exact hn hA.2 m hm
  | two i op a b n ha hb hn =>
      intro A hA m hm
      simp only [collectExpressionReads, List.forall_mem_append] at hA
      rcases List.mem_cons.mp hm with rfl | hm
      · intro A' hA'
        have hleft := yields_first (fun m hm A'' hA'' => ha hA.1 m hm A'' hA'') A' hA'
        have hright : ∀ A'', (∀ c, A' c → A'' c) → Yields C R (Value.Refers R) A'' (first (evals ctx b)) :=
          fun A'' hA'' => yields_first (hb hA.2.1) A'' fun c hc => hA'' c (hA' c hc)
        have tail : ∀ A'', (∀ c, A' c → A'' c) → Yields C R (Value.Refers R) A''
            (do let r ← first (evals ctx b); let t ← truth r; Pure.pure (.bool t) : M H V (Value V)) := by
          intro A'' hA''
          exact (hright A'' hA'').bind fun r => Yields.truth.bind fun t => Yields.pure fun _ h => h.elim
        have pair : ∀ {l r : Value V} (c : Addr), Refer R [l, r] c →
            (A' c ∨ l.Refers R c) ∨ r.Refers R c := by
          rintro l r c ⟨v, hv, hr⟩
          simp only [List.mem_cons, List.not_mem_nil, or_false] at hv
          rcases hv with rfl | rfl
          · exact .inl (.inr hr)
          · exact .inr hr
        cases op with
        | index =>
            exact hleft.bind fun l => (hright _ fun c hc => .inl hc).bind fun r =>
              Yields.liftHost (laws.arrayGet l r) pair
        | binary u =>
            cases u with
            | and =>
                refine hleft.bind fun l => Yields.truth.bind fun t => ?_
                cases t with
                | false => exact Yields.pure fun _ h => h.elim
                | true => exact tail _ fun c hc => .inl (.inl hc)
            | or =>
                refine hleft.bind fun l => Yields.truth.bind fun t => ?_
                cases t with
                | false => exact tail _ fun c hc => .inl (.inl hc)
                | true => exact Yields.pure fun _ h => h.elim
            | _ =>
                exact hleft.bind fun l => (hright _ fun c hc => .inl hc).bind fun r =>
                  Yields.binaryValue laws pair
        | _ => exact Yields.throw
      · exact hn hA.2.2 m hm
  | ifNode i c t e n _ _ _ hn =>
      intro A hA m hm
      simp only [collectExpressionReads, List.forall_mem_append] at hA
      rcases List.mem_cons.mp hm with rfl | hm
      · exact fun A' _ => Yields.throw
      · exact hn hA.2.2.2 m hm

/-- The first expression of a chain. -/
theorem yields_operand (laws : HostLaws ctx.host R) (hcall : CallsYield C R ctx.call) {e : Hir}
    {A : Addr → Prop} (hA : ∀ x ∈ collectExpressionReads e.head, A (ctx.addr x)) :
    Stable C R (Value.Refers R) A (first (evals ctx e)) := by
  have hfirst : first (evals ctx e) = first (evals ctx e.head) := by cases e <;> rfl
  rw [hfirst]
  exact yields_first (yields_evals laws hcall e.head hA)

theorem mem_reads_head {e : Hir} {x : String} (hx : x ∈ collectExpressionReads e.head) :
    x ∈ collectExpressionReads e := by
  cases e with
  | nil => exact hx
  | leaf i op n => cases op <;> simp_all [Hir.head, collectExpressionReads]
  | one i op a n => simp_all [Hir.head, collectExpressionReads]
  | two i op a b n =>
      simp only [Hir.head, collectExpressionReads, List.mem_append, List.not_mem_nil, or_false] at hx ⊢
      exact hx.imp_right .inl
  | ifNode i c t e n =>
      simp only [Hir.head, collectExpressionReads, List.mem_append, List.not_mem_nil, or_false] at hx ⊢
      exact hx.imp_right (Or.imp_right .inl)

/-! ## Following a run -/

section Follow

variable {K : String → Prop} {A : Addr → Prop}

/-- Every run of `h`, behind what is past, uses only variables in `K` or already assigned by it. -/
def SafeAfter (K : String → Prop) (past : List CfgEvent) (h : Hir) : Prop :=
  ∀ es ev rest o, Runs h (es ++ ev :: rest) o → ∀ v ∈ ev.uses, K v ∨ Defined (past ++ es) v

/-- The addresses that are assigned by then: those in `A`, those of `K`, those of the past. -/
def Known (ctx : Ctx H V) (K : String → Prop) (past : List CfgEvent) (A : Addr → Prop) (a : Addr) : Prop :=
  A a ∨ ∃ v, (K v ∨ Defined past v) ∧ a = ctx.addr v

theorem Known.append {past es : List CfgEvent} {a : Addr} (h : Known ctx K past A a) :
    Known ctx K (past ++ es) A a := by
  refine h.imp_right ?_
  rintro ⟨v, hv, rfl⟩
  exact ⟨v, hv.imp_right fun h => defined_append.mpr (.inl h), rfl⟩

/-- One more event makes at most its definitions known. -/
theorem known_snoc {past : List CfgEvent} {ev : CfgEvent} {a : Addr} :
    Known ctx K (past ++ [ev]) A a ↔ Known ctx K past A a ∨ ∃ x ∈ ev.defs, a = ctx.addr x := by
  constructor
  · rintro (ha | ⟨v, hv | hv, rfl⟩)
    · exact .inl (.inl ha)
    · exact .inl (.inr ⟨v, .inl hv, rfl⟩)
    · rcases defined_append.mp hv with hv | ⟨e, he, hv⟩
      · exact .inl (.inr ⟨v, .inr hv, rfl⟩)
      · rw [List.mem_singleton.mp he] at hv
        exact .inr ⟨v, hv, rfl⟩
  · rintro (ha | ⟨x, hx, rfl⟩)
    · exact ha.append
    · exact .inr ⟨x, .inr (defined_append.mpr (.inr ⟨ev, List.mem_singleton_self ev, hx⟩)), rfl⟩

/-- Code whose runs are parts of runs of `h` is as safe as `h`. -/
theorem SafeAfter.part {past es₀ : List CfgEvent} {h h' : Hir} (hs : SafeAfter K past h)
    (embed : ∀ {es o}, Runs h' es o → ∃ o', Runs h (es₀ ++ es) o') : SafeAfter K (past ++ es₀) h' := by
  intro es ev rest o hr v hv
  obtain ⟨o', hr'⟩ := embed hr
  rw [← List.append_assoc] at hr'
  have := hs (es₀ ++ es) ev rest o' hr' v hv
  rwa [← List.append_assoc] at this

/-- The uses of the next event are assigned. -/
theorem SafeAfter.next {past rest : List CfgEvent} {h : Hir} {ev : CfgEvent} {o : Outcome}
    (hs : SafeAfter K past h) (hr : Runs h (ev :: rest) o) : ∀ v ∈ ev.uses, Known ctx K past A (ctx.addr v) := by
  intro v hv
  have := hs [] ev rest o hr v hv
  rw [List.append_nil] at this
  exact .inr ⟨v, this, rfl⟩

/-- How a statement's flow is called in a structured run. -/
def Flow.outcome : Flow V → Outcome
  | .normal => .normal
  | .breakLoop => .broke
  | .continueLoop => .continued
  | .returned _ => .returned

def Flow.Refers (R : HostRefs H V) : Flow V → Addr → Prop
  | .returned v => v.Refers R
  | _ => fun _ => False

/-- The events of the first statement of `h`, whose rest is `n`: a normal end goes on with the rest. -/
def Through (h n : Hir) (es : List CfgEvent) (flow : Flow V) : Prop :=
  match flow with
  | .normal => ∀ es' o, Runs n es' o → Runs h (es ++ es') o
  | flow => Runs h es flow.outcome

/-- What is known after a statement that has shown `es` and ended with `flow`. -/
def After (ctx : Ctx H V) (R : HostRefs H V) (K : String → Prop) (past : List CfgEvent) (A : Addr → Prop)
    (es : List CfgEvent) (flow : Flow V) (s : State H V) : Prop :=
  Inv R (fun a => Known ctx K (past ++ es) A a ∨ flow.Refers R a) s

/-- The sequence `h`, run after the past, ends as one of its runs does. -/
def Follows (C : String × List String → Prop) (ctx : Ctx H V) (R : HostRefs H V) (h : Hir)
    (m : M H V (Flow V)) : Prop :=
  ∀ {K : String → Prop} {A : Addr → Prop} {past : List CfgEvent}, SafeAfter K past h →
    Guarded C (Inv R (Known ctx K past A)) m fun flow s =>
      ∃ es, Runs h es flow.outcome ∧ After ctx R K past A es flow s

/-- Entries grow in any case: if everything counts as assigned, every run is safe. -/
theorem Follows.entries {h : Hir} {m : M H V (Flow V)} (hm : Follows C ctx R h m) (s : State H V) :
    s.entries ⊆ (finalState (m s)).entries :=
  (@hm (fun _ => True) (fun _ => True) [] fun _ _ _ _ _ _ _ => .inl trivial).entries s

/-- A statement and the rest of its chain. -/
theorem guarded_cons {past : List CfgEvent} {h n : Hir} {m : M H V (Flow V)} {ms : List (M H V (Flow V))}
    (hsafe : SafeAfter K past h)
    (hm : Guarded C (Inv R (Known ctx K past A)) m fun flow s =>
      ∃ es, Through h n es flow ∧ After ctx R K past A es flow s)
    (hn : Follows C ctx R n (runSeq ms)) :
    Guarded C (Inv R (Known ctx K past A)) (runSeq (m :: ms)) fun flow s =>
      ∃ es, Runs h es flow.outcome ∧ After ctx R K past A es flow s := by
  refine hm.bind fun flow => ?_
  cases flow with
  | normal =>
      refine Guarded.exists_of hn.entries fun es hes => ?_
      have hsafe' : SafeAfter K (past ++ es) n := hsafe.part fun hr => ⟨_, hes _ _ hr⟩
      refine (hn hsafe').conseq (fun s hs => hs.weaken fun a ha => .inl ha) ?_
      rintro flow s ⟨es', hr, ha⟩
      refine ⟨es ++ es', hes es' _ hr, ?_⟩
      unfold After at ha ⊢
      rwa [← List.append_assoc]
  | _ => exact Guarded.pure fun s hs => hs

/-! ## Statements -/

/-- A statement that shows one event without definitions and then ends normally. -/
theorem guarded_plain {past : List CfgEvent} {h n : Hir} {m : M H V (Flow V)} {ev : CfgEvent}
    (hrule : ∀ {es o}, Runs n es o → Runs h (ev :: es) o)
    (hm : Guarded C (Inv R (Known ctx K past A)) m fun flow s =>
      flow = .normal ∧ Inv R (Known ctx K (past ++ [ev]) A) s) :
    Guarded C (Inv R (Known ctx K past A)) m fun flow s =>
      ∃ es, Through h n es flow ∧ After ctx R K past A es flow s := by
  refine hm.conseq (fun _ hs => hs) ?_
  rintro flow s ⟨rfl, hs⟩
  exact ⟨[ev], fun es' o hr => hrule hr, hs.weaken fun a ha => ha.elim id fun h => h.elim⟩

/-- Evaluate one operand, go on with its value, and end normally. -/
theorem guarded_value (laws : HostLaws ctx.host R) (hcall : CallsYield C R ctx.call) {past : List CfgEvent}
    {ev : CfgEvent} {e : Hir} {f : Value V → M H V Unit}
    (hA : ∀ x ∈ collectExpressionReads e.head, Known ctx K past A (ctx.addr x))
    (hf : ∀ v, Guarded C (Inv R fun a => Known ctx K past A a ∨ v.Refers R a) (f v) fun _ =>
      Inv R (Known ctx K (past ++ [ev]) A)) :
    Guarded C (Inv R (Known ctx K past A)) (do let v ← first (evals ctx e); f v; Pure.pure .normal : M H V (Flow V))
      fun flow s => flow = .normal ∧ Inv R (Known ctx K (past ++ [ev]) A) s := by
  refine Guarded.bind (yields_operand laws hcall hA _ fun _ ha => ha) fun v => (hf v).bind fun _ => ?_
  exact Guarded.pure fun s hs => ⟨rfl, hs⟩

/-- A store defines its variable. -/
theorem guarded_store {past : List CfgEvent} {ev : CfgEvent} {x : String} (hx : ev.defs = [x]) (v : Value V) :
    Guarded C (Inv R fun a => Known ctx K past A a ∨ v.Refers R a) (writeVar (ctx.addr x) v) fun _ =>
      Inv R (Known ctx K (past ++ [ev]) A) := by
  refine (Yields.writeVar fun a ha => .inr ha).conseq (fun _ hs => hs) fun _ s hs => hs.weaken fun a ha => ?_
  rw [known_snoc, hx] at ha
  rcases ha with ha | ⟨y, hy, rfl⟩
  · exact .inl (.inl ha)
  · rw [List.mem_singleton.mp hy]
    exact .inr rfl

/-- Anything else a statement does with its value leaves known what was known. -/
theorem guarded_effect {α : Type} {refs : α → Addr → Prop} {past : List CfgEvent} {ev : CfgEvent}
    {m : M H V α} {B : Addr → Prop} (hev : ev.defs = []) (hB : ∀ a, Known ctx K past A a → B a)
    (hm : Yields C R refs B m) : Guarded C (Inv R B) m fun _ => Inv R (Known ctx K (past ++ [ev]) A) := by
  refine hm.conseq (fun _ hs => hs) fun _ s hs => hs.weaken fun a ha => ?_
  rw [known_snoc, hev] at ha
  rcases ha with ha | ⟨y, hy, -⟩
  · exact .inl (hB a ha)
  · cases hy

/-- A block inside a statement: what it does is part of what the statement does, after the events `es₀`. -/
theorem guarded_block {past es₀ : List CfgEvent} {h a n : Hir} {m : M H V (Flow V)}
    (hsafe : SafeAfter K past h) (ha : Follows C ctx R a m)
    (through : ∀ {es es' o}, Runs a es .normal → Runs n es' o → Runs h (es₀ ++ (es ++ es')) o)
    (out : ∀ {es o}, Runs a es o → o ≠ .normal → Runs h (es₀ ++ es) o) :
    Guarded C (Inv R (Known ctx K (past ++ es₀) A)) m fun flow s =>
      ∃ es, Through h n es flow ∧ After ctx R K past A es flow s := by
  have hsafea : SafeAfter K (past ++ es₀) a := by
    refine hsafe.part fun {es o} hr => ?_
    by_cases ho : o = .normal
    · subst ho
      exact ⟨.cut, by simpa using through hr (.cut n)⟩
    · exact ⟨o, out hr ho⟩
  refine (ha hsafea).conseq (fun _ hs => hs) ?_
  rintro flow s ⟨es, hr, hs⟩
  refine ⟨es₀ ++ es, ?_, by unfold After at hs ⊢; rwa [← List.append_assoc]⟩
  cases flow with
  | normal =>
      intro es' o hr'
      rw [List.append_assoc]
      exact through hr hr'
  | _ => exact out hr Outcome.noConfusion

/-- A statement that runs nothing and shows nothing. -/
theorem guarded_silent {past : List CfgEvent} {h n : Hir} (hrule : ∀ {es o}, Runs n es o → Runs h es o) :
    Guarded C (Inv R (Known ctx K past A)) (Pure.pure .normal : M H V (Flow V)) fun flow s =>
      ∃ es, Through h n es flow ∧ After ctx R K past A es flow s := by
  refine Guarded.pure fun s hs => ⟨[], fun es' o hr => hrule hr, hs.weaken fun a ha => ?_⟩
  rw [List.append_nil] at ha
  exact ha.elim id fun h => h.elim

/-- A statement that leaves its sequence. -/
theorem guarded_exit {past : List CfgEvent} {h n : Hir} {ev : CfgEvent} {flow : Flow V} (hev : ev.defs = [])
    (hflow : flow ≠ .normal) (hr : Runs h [ev] flow.outcome) {B : Addr → Prop}
    (hB : ∀ a, Known ctx K past A a ∨ flow.Refers R a → B a) :
    Guarded C (Inv R B) (Pure.pure flow : M H V (Flow V)) fun flow s =>
      ∃ es, Through h n es flow ∧ After ctx R K past A es flow s := by
  refine Guarded.pure fun s hs => ⟨[ev], ?_, hs.weaken fun a ha => hB a ?_⟩
  · cases flow <;> first | exact absurd rfl hflow | exact hr
  · rw [known_snoc, hev] at ha
    rcases ha with (ha | ⟨y, hy, -⟩) | ha
    · exact .inl ha
    · cases hy
    · exact .inr ha

section Statement

variable (laws : HostLaws ctx.host R) (hcall : CallsYield C R ctx.call)

include laws hcall

/-- `emit_assignment`. -/
theorem guarded_assign {past : List CfgEvent} {i : Nat} {a b n : Hir}
    (hsafe : SafeAfter K past (.two i .assign a b n)) :
    Guarded C (Inv R (Known ctx K past A)) (assign ctx a (first (evals ctx b))) fun _ =>
      Inv R (Known ctx K (past ++ [.statement (.two i .assign a b .nil)]) A) := by
  have huse : ∀ v ∈ (CfgEvent.statement (.two i .assign a b .nil)).uses, Known ctx K past A (ctx.addr v) :=
    hsafe.next (.two rfl (.cut n))
  -- Operands under whatever is known by then.
  have operand : ∀ {e : Hir}, (∀ x ∈ collectExpressionReads e, Known ctx K past A (ctx.addr x)) →
      ∀ {B : Addr → Prop}, (∀ c, Known ctx K past A c → B c) →
        Yields C R (Value.Refers R) B (first (evals ctx e)) :=
    fun hx _ hB => yields_operand laws hcall (fun x hx' => hx x (mem_reads_head hx')) _ hB
  have value : (∀ x ∈ collectExpressionReads b.head, Known ctx K past A (ctx.addr x)) →
      ∀ {B : Addr → Prop}, (∀ c, Known ctx K past A c → B c) →
        Yields C R (Value.Refers R) B (first (evals ctx b)) :=
    fun hx _ hB => yields_operand laws hcall hx _ hB
  unfold assign
  split
  · -- to a variable
    refine Guarded.bind (value huse fun _ hc => hc) fun v => ?_
    exact guarded_store rfl v
  · -- to an element
    rename_i j object index m
    have hreads : ∀ x ∈ collectExpressionReads object ++ collectExpressionReads index ++
        collectExpressionReads b.head, Known ctx K past A (ctx.addr x) := by
      intro x hx
      refine huse x ?_
      simpa [CfgEvent.uses, instructionEffects, Hir.head, collectExpressionReads] using hx
    simp only [List.forall_mem_append] at hreads
    refine Guarded.bind (operand hreads.1.1 fun _ hc => hc) fun o => ?_
    refine Guarded.bind (operand hreads.1.2 fun _ hc => .inl hc) fun k => ?_
    refine Guarded.bind (value hreads.2 fun _ hc => .inl (.inl hc)) fun v => ?_
    refine Guarded.bind (Yields.liftHost (laws.arraySet o k v) ?_) fun _ => ?_
    · rintro c ⟨w, hw, hr⟩
      simp only [List.mem_cons, List.not_mem_nil, or_false] at hw
      rcases hw with rfl | rfl | rfl
      · exact .inl (.inl (.inr hr))
      · exact .inl (.inr hr)
      · exact .inr hr
    · refine Guarded.pure fun s hs => hs.weaken fun c hc => ?_
      rw [known_snoc] at hc
      rcases hc with hc | ⟨y, hy, -⟩
      · exact .inl (.inl (.inl (.inl hc)))
      · cases hy
  · -- to a field
    rename_i j name object m
    have hreads : ∀ x ∈ collectExpressionReads object ++ collectExpressionReads b.head,
        Known ctx K past A (ctx.addr x) := by
      intro x hx
      refine huse x ?_
      simpa [CfgEvent.uses, instructionEffects, Hir.head, collectExpressionReads] using hx
    simp only [List.forall_mem_append] at hreads
    refine Guarded.bind (operand hreads.1 fun _ hc => hc) fun o => ?_
    refine Guarded.bind (value hreads.2 fun _ hc => .inl hc) fun v => ?_
    refine Guarded.bind (Yields.liftHost (laws.objectSet o name v) ?_) fun _ => ?_
    · rintro c ⟨w, hw, hr⟩
      simp only [List.mem_cons, List.not_mem_nil, or_false] at hw
      rcases hw with rfl | rfl
      · exact .inl (.inr hr)
      · exact .inr hr
    · refine Guarded.pure fun s hs => hs.weaken fun c hc => ?_
      rw [known_snoc] at hc
      rcases hc with hc | ⟨y, hy, -⟩
      · exact .inl (.inl (.inl hc))
      · cases hy
  · -- through a reference
    rename_i j operand' m
    have hreads : ∀ x ∈ collectExpressionReads operand' ++ collectExpressionReads b.head,
        Known ctx K past A (ctx.addr x) := by
      intro x hx
      refine huse x ?_
      simpa [CfgEvent.uses, instructionEffects, Hir.head, collectExpressionReads] using hx
    simp only [List.forall_mem_append] at hreads
    refine Guarded.bind (operand hreads.1 fun _ hc => hc) fun r => ?_
    refine Guarded.bind (value hreads.2 fun _ hc => .inl hc) fun v => ?_
    unfold refSet
    split
    · refine (Yields.writeVar fun c hc => .inr hc).conseq (fun _ hs => hs) fun _ s hs => hs.weaken fun c hc => ?_
      rw [known_snoc] at hc
      rcases hc with hc | ⟨y, hy, -⟩
      · exact .inl (.inl (.inl hc))
      · cases hy
    · exact Guarded.throw
  · exact Guarded.throw

/-- A plain statement with one group of children. -/
theorem guarded_execOne {past : List CfgEvent} {i : Nat} {op : HirOne} {a n : Hir} (hop : op.isPlain = true)
    {ms : List (M H V (Flow V))} (hsafe : SafeAfter K past (.one i op a n)) :
    Guarded C (Inv R (Known ctx K past A)) (execOne ctx op (evals ctx a) ms) fun flow s =>
      flow = .normal ∧ Inv R (Known ctx K (past ++ [.statement (.one i op a .nil)]) A) s := by
  have huse : ∀ v ∈ (CfgEvent.statement (.one i op a .nil)).uses, Known ctx K past A (ctx.addr v) :=
    hsafe.next (.one hop (.cut n))
  cases op with
  | print =>
      refine guarded_value laws hcall huse fun v => ?_
      exact guarded_effect rfl (fun _ hc => .inl hc) Yields.printValue
  | variableDecl x t =>
      by_cases ha : a = .nil
      · subst ha
        exact Guarded.throw
      · have heff : instructionEffects (.one i (.variableDecl x t) a .nil) =
            (collectExpressionReads a.head, [x]) := if_neg ha
        refine guarded_value laws hcall ?_ fun v => ?_
        · intro y hy
          refine huse y ?_
          rw [CfgEvent.uses, heff]
          exact hy
        · exact guarded_store (by rw [CfgEvent.defs, heff]) v
  | reassign x t =>
      refine guarded_value laws hcall huse fun v => ?_
      exact guarded_store rfl v
  | call f =>
      have hreads : ∀ x ∈ collectExpressionReads a, Known ctx K past A (ctx.addr x) := by
        intro x hx
        refine huse x ?_
        simpa [CfgEvent.uses, instructionEffects, Hir.head, collectExpressionReads] using hx
      have hargs := yields_evals laws hcall a hreads
      have heffect : Guarded C (Inv R (Known ctx K past A)) (callValue ctx f (evals ctx a)) fun _ =>
          Inv R (Known ctx K (past ++ [.statement (.one i (.call f) a .nil)]) A) :=
        guarded_effect rfl (fun _ hc => hc) (yields_callValue laws hcall hargs)
      exact heffect.bind fun _ => Guarded.pure fun s hs => ⟨rfl, hs⟩
  | program => cases hop
  | function f names => cases hop
  | returnNode => cases hop
  | _ => exact Guarded.throw

/-- A condition comes out as one of its tests may. -/
theorem guarded_condition {past : List CfgEvent} {c : Hir}
    (huse : ∀ outcome, literalCondition c.head = none → ∀ v ∈ (CfgEvent.test c.head outcome).uses,
      Known ctx K past A (ctx.addr v)) :
    Guarded C (Inv R (Known ctx K past A)) (condition (evals ctx c)) fun outcome s =>
      ∃ es, Tests c.head outcome es ∧ Inv R (Known ctx K (past ++ es) A) s := by
  cases hlit : literalCondition c.head with
  | some b =>
      -- A literal is what it says.
      obtain ⟨i, n, rfl⟩ : ∃ i n, c = .leaf i (.boolean b) n := by
        cases c with
        | leaf i op n =>
            cases op with
            | boolean b' => cases hlit; exact ⟨i, n, rfl⟩
            | _ => cases hlit
        | _ => cases hlit
      refine Guarded.pure fun s hs => ⟨[], ⟨rfl, rfl⟩, ?_⟩
      rwa [List.append_nil]
  | none =>
      have hreads : ∀ x ∈ collectExpressionReads c.head, Known ctx K past A (ctx.addr x) := by
        intro x hx
        refine huse true hlit x ?_
        have : c.head.head = c.head := by cases c <;> rfl
        rw [CfgEvent.uses, this]
        exact hx
      refine Guarded.bind (yields_operand laws hcall hreads _ fun _ ha => ha) fun v => ?_
      refine Guarded.conseq Yields.truth (fun _ hs => hs) fun outcome s hs => ?_
      refine ⟨[.test c.head outcome], by simp [Tests, hlit], hs.weaken fun a ha => ?_⟩
      rw [known_snoc] at ha
      rcases ha with ha | ⟨y, hy, -⟩
      · exact .inl (.inl ha)
      · cases hy

/-- A loop, round by round. -/
theorem guarded_whileLoop {i : Nat} {c b n : Hir} {ms : List (M H V (Flow V))}
    (hb : Follows C ctx R b (runSeq ms)) : ∀ (clock : Nat) {K : String → Prop} {A : Addr → Prop}
      {past : List CfgEvent}, SafeAfter K past (.two i .whileNode c b n) →
      Guarded C (Inv R (Known ctx K past A)) (whileLoop (condition (evals ctx c)) (runSeq ms) clock)
        fun flow s => ∃ es, Through (.two i .whileNode c b n) n es flow ∧ After ctx R K past A es flow s := by
  -- The test, in any round.
  have htest : ∀ {K : String → Prop} {A : Addr → Prop} {past : List CfgEvent},
      SafeAfter K past (.two i .whileNode c b n) →
      Guarded C (Inv R (Known ctx K past A)) (condition (evals ctx c)) fun outcome s =>
        ∃ es, Tests c.head outcome es ∧ Inv R (Known ctx K (past ++ es) A) s := by
    intro K A past hsafe
    refine guarded_condition laws hcall fun outcome hlit => ?_
    have ht : Tests c.head false [.test c.head false] := by simp [Tests, hlit]
    have hr : Runs (.two i .whileNode c b n) [.test c.head false] .cut := .done ht (.cut n)
    exact fun v hv => hsafe.next hr v hv
  -- A test that fails ends the loop.
  have stop : ∀ {K : String → Prop} {A : Addr → Prop} {past es : List CfgEvent}, Tests c.head false es →
      Guarded C (Inv R (Known ctx K (past ++ es) A)) (Pure.pure .normal : M H V (Flow V))
        fun flow s => ∃ es, Through (.two i .whileNode c b n) n es flow ∧ After ctx R K past A es flow s := by
    intro K A past es ht
    refine Guarded.pure fun s hs => ⟨es, fun es' o hr => .done ht hr, ?_⟩
    exact hs.weaken fun a ha => ha.elim id fun h => h.elim
  intro clock
  induction clock with
  | zero =>
      intro K A past hsafe
      refine (htest hsafe).bind fun outcome => ?_
      cases outcome with
      | false => exact Guarded.exists_of (fun _ _ he => he) fun es ht => stop ht
      | true => exact Guarded.throw
  | succ clock ih =>
      intro K A past hsafe
      refine (htest hsafe).bind fun outcome => ?_
      cases outcome with
      | false => exact Guarded.exists_of (fun _ _ he => he) fun es ht => stop ht
      | true =>
          have grow : ∀ s : State H V, s.entries ⊆ (finalState
              (whileLoop (condition (evals ctx c)) (runSeq ms) clock s)).entries :=
            (@ih (fun _ => True) (fun _ => True) [] fun _ _ _ _ _ _ _ => .inl trivial).entries
          refine Guarded.exists_of (Guarded.entries_bind hb.entries ?_) fun es ht => ?_
          · intro flow
            cases flow <;> first | exact grow | exact fun _ _ he => he
          · -- What the body does is part of what the loop does.
            have hsafeb : SafeAfter K (past ++ es) b := by
              refine hsafe.part fun {es' o} hr => ?_
              cases o with
              | normal => exact ⟨.cut, by simpa using Runs.again ht hr (.inl rfl) (.cut _)⟩
              | continued => exact ⟨.cut, by simpa using Runs.again ht hr (.inr rfl) (.cut _)⟩
              | broke => exact ⟨.cut, by simpa using Runs.left ht hr (.cut n)⟩
              | returned => exact ⟨.returned, .loopOut ht hr (.inl rfl)⟩
              | cut => exact ⟨.cut, .loopOut ht hr (.inr rfl)⟩
            refine (hb hsafeb).bind fun flow => ?_
            -- Another round, after a normal end or `continue`.
            have round : ∀ {es' : List CfgEvent} {o' : Outcome}, Runs b es' o' →
                (o' = .normal ∨ o' = .continued) →
                Guarded C (Inv R (Known ctx K (past ++ (es ++ es')) A))
                  (whileLoop (condition (evals ctx c)) (runSeq ms) clock) fun flow s =>
                    ∃ es, Through (.two i .whileNode c b n) n es flow ∧ After ctx R K past A es flow s := by
              intro es' o' hrb hround
              have hrule : ∀ {es'' o}, Runs (.two i .whileNode c b n) es'' o →
                  Runs (.two i .whileNode c b n) (es ++ es' ++ es'') o := by
                intro es'' o hr
                rw [List.append_assoc]
                exact .again ht hrb hround hr
              refine (ih (hsafe.part fun hr => ⟨_, hrule hr⟩)).conseq (fun _ hs => hs) ?_
              rintro flow s ⟨es'', hthrough, hafter⟩
              refine ⟨es ++ es' ++ es'', ?_, by unfold After at hafter ⊢; rwa [← List.append_assoc]⟩
              cases flow with
              | normal =>
                  intro es₃ o hr
                  rw [List.append_assoc (es ++ es')]
                  exact hrule (hthrough es₃ o hr)
              | _ => exact hrule hthrough
            cases flow with
            | normal =>
                refine Guarded.exists_of grow fun es' hrb => ?_
                refine (round hrb (.inl rfl)).conseq (fun s hs => hs.weaken fun a ha => .inl ?_) fun _ _ h => h
                rwa [List.append_assoc]
            | continueLoop =>
                refine Guarded.exists_of grow fun es' hrb => ?_
                refine (round hrb (.inr rfl)).conseq (fun s hs => hs.weaken fun a ha => .inl ?_) fun _ _ h => h
                rwa [List.append_assoc]
            | breakLoop =>
                refine Guarded.pure ?_
                rintro s ⟨es', hrb, hs⟩
                refine ⟨es ++ es', fun es₃ o hr => ?_, hs.weaken fun a ha => ?_⟩
                · rw [List.append_assoc]
                  exact .left ht hrb hr
                · rw [List.append_assoc]
                  exact ha
            | returned v =>
                refine Guarded.pure ?_
                rintro s ⟨es', hrb, hs⟩
                refine ⟨es ++ es', Runs.loopOut ht hrb (.inl rfl), hs.weaken fun a ha => ?_⟩
                rw [List.append_assoc]
                exact ha

/-- A `return`, with or without a value. -/
theorem guarded_return {past : List CfgEvent} {i : Nat} {a n : Hir} {ms : List (M H V (Flow V))}
    (hsafe : SafeAfter K past (.one i .returnNode a n)) :
    Guarded C (Inv R (Known ctx K past A)) (execOne ctx .returnNode (evals ctx a) ms) fun flow s =>
      ∃ es, Through (.one i .returnNode a n) n es flow ∧ After ctx R K past A es flow s := by
  have huse : ∀ v ∈ (CfgEvent.statement (.one i .returnNode a .nil)).uses, Known ctx K past A (ctx.addr v) :=
    hsafe.next .return_
  have hvalue := yields_operand laws hcall huse _ fun _ ha => ha
  unfold execOne
  cases hms : evals ctx a with
  | nil => exact guarded_exit rfl (by nofun) .return_ fun c hc => hc.elim id fun h => h.elim
  | cons m ms =>
      rw [hms] at hvalue
      exact Guarded.bind hvalue fun v => guarded_exit rfl (by nofun) .return_ fun c hc => hc

/-- **Execution follows the structured runs**, statement by statement down the tree. -/
theorem follows_execs (h : Hir) : Follows C ctx R h (runSeq (execs ctx h)) := by
  induction h with
  | nil =>
      intro K A past _
      refine Guarded.pure fun s hs => ⟨[], .nil, hs.weaken fun a ha => ?_⟩
      rw [List.append_nil] at ha
      exact ha.elim id fun h => h.elim
  | leaf i op n hn =>
      intro K A past hsafe
      refine guarded_cons hsafe ?_ hn
      cases op with
      | struct name names => exact guarded_silent .struct
      | breakNode => exact guarded_exit rfl (by nofun) .break_ fun c hc => hc.elim id fun h => h.elim
      | continueNode => exact guarded_exit rfl (by nofun) .continue_ fun c hc => hc.elim id fun h => h.elim
      | asm text isVolatile =>
          refine guarded_plain (.leaf rfl) ?_
          have hasm : Guarded C (Inv R (Known ctx K past A)) (ctx.host.asm text ctx.frame) fun _ =>
              Inv R (Known ctx K (past ++ [.statement (.leaf i (.asm text isVolatile) .nil)]) A) := by
            refine guarded_effect rfl (fun _ hc => hc) (Yields.ofStorage (laws.asm text ctx.frame) ?_)
            rintro c ⟨v, hv, -⟩
            cases hv
          exact hasm.bind fun _ => Guarded.pure fun s hs => ⟨rfl, hs⟩
      | _ => exact Guarded.throw
  | one i op a n ha hn =>
      intro K A past hsafe
      refine guarded_cons hsafe ?_ hn
      cases op with
      | program =>
          have hblock := @guarded_block _ _ C R ctx K A past [] _ a n _ hsafe ha .program .programOut
          rwa [List.append_nil] at hblock
      | function name names => exact guarded_silent .function
      | returnNode => exact guarded_return laws hcall hsafe
      | _ => exact guarded_plain (.one rfl) (guarded_execOne laws hcall rfl hsafe)
  | two i op a b n _ hb hn =>
      intro K A past hsafe
      refine guarded_cons hsafe ?_ hn
      cases op with
      | whileNode => exact guarded_whileLoop laws hcall hb ctx.clock hsafe
      | assign =>
          refine guarded_plain (.two rfl) ?_
          exact (guarded_assign laws hcall hsafe).bind fun _ => Guarded.pure fun s hs => ⟨rfl, hs⟩
      | _ => exact Guarded.throw
  | ifNode i c t e n _ ht he hn =>
      intro K A past hsafe
      refine guarded_cons hsafe ?_ hn
      have hcond : Guarded C (Inv R (Known ctx K past A)) (condition (evals ctx c)) fun outcome s =>
          ∃ es, Tests c.head outcome es ∧ Inv R (Known ctx K (past ++ es) A) s := by
        refine guarded_condition laws hcall fun outcome hlit => ?_
        have htest : Tests c.head outcome [.test c.head outcome] := by simp [Tests, hlit]
        have hr : Runs (.ifNode i c t e n) [.test c.head outcome] .cut := .armOut htest (.cut _) Outcome.noConfusion
        exact fun v hv => hsafe.next hr v hv
      refine hcond.bind fun outcome => ?_
      have harm : Follows C ctx R (if outcome then t else e)
          (if outcome then runSeq (execs ctx t) else runSeq (execs ctx e)) := by
        cases outcome
        · exact he
        · exact ht
      refine Guarded.exists_of harm.entries fun es htest => ?_
      exact guarded_block hsafe harm (.arm htest) (.armOut htest)

end Statement

end Follow

end Vnt
