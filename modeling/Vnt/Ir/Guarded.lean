import Vnt.Ir.Semantics
import Vnt.Lib.Agree

/-!
# `Ir.Guarded` — runs that never read unassigned storage

A reference is the address of a variable, and `&x` counts as a use of `x`; so as long as the uses of a program
are assigned, every reference it holds points to assigned storage. `Inv` is that invariant together with a
set of addresses known to be assigned, and `Guarded` the triple that carries it through a computation: it
speaks only about runs all of whose function entries satisfy `C`.

The runtime library is asked for two things (`HostLaws`): it makes no references of its own, and it neither
reads nor clears the storage of variables.
-/

namespace Vnt

open Lib

variable {H V : Type}

/-! ## References and what the host does with them -/

/-- The references held by a boxed value and by the host's memory. -/
structure HostRefs (H V : Type) where
  boxed : V → Addr → Prop
  heap : H → Addr → Prop

def Assigned (s : State H V) (a : Addr) : Prop := (s.vars a).isSome = true

/-- The value is, or holds, a reference to `a`. -/
def Value.Refers (R : HostRefs H V) : Value V → Addr → Prop
  | .ref b, a => b = a
  | .boxed v, a => R.boxed v a
  | _, _ => False

/-- Something in the memory refers to `a`. -/
def State.Refers (R : HostRefs H V) (s : State H V) (a : Addr) : Prop :=
  R.heap s.heap a ∨ ∃ b v, s.vars b = some v ∧ v.Refers R a

/-- One of the values refers to `a`. -/
def Refer (R : HostRefs H V) (vs : List (Value V)) (a : Addr) : Prop := ∃ v ∈ vs, v.Refers R a

/-- The operation hands out, and keeps, only references it was given. -/
def MakesNoRefs (R : HostRefs H V) (args : List (Value V)) (m : HostM H (Value V)) : Prop :=
  ∀ h v h', m h = .ok v h' → ∀ a, v.Refers R a ∨ R.heap h' a → R.heap h a ∨ Refer R args a

/-- The operation on the whole state: it makes no references, leaves assigned what was assigned, and neither
    reads variables nor enters functions. -/
def LeavesStorage {α : Type} (R : HostRefs H V) (args : List (Value V)) (result : α → Addr → Prop)
    (m : M H V α) : Prop :=
  ∀ s, (finalState (m s)).unassignedReads = s.unassignedReads ∧ (finalState (m s)).entries = s.entries ∧
    ∀ r s', m s = .ok r s' → (∀ a, Assigned s a → Assigned s' a) ∧
      ∀ a, result r a ∨ s'.Refers R a → s.Refers R a ∨ Refer R args a

/-- What is relied on in the runtime library and in inline assembly. -/
structure HostLaws (host : Host H V) (R : HostRefs H V) : Prop where
  string : ∀ text, MakesNoRefs R [] (host.string text)
  arrayNew : MakesNoRefs R [] host.arrayNew
  arrayPush : ∀ a v, MakesNoRefs R [a, v] (host.arrayPush a v)
  arrayGet : ∀ a i, MakesNoRefs R [a, i] (host.arrayGet a i)
  arraySet : ∀ a i v, MakesNoRefs R [a, i, v] (host.arraySet a i v)
  objectGet : ∀ o x, MakesNoRefs R [o] (host.objectGet o x)
  objectSet : ∀ o x v, MakesNoRefs R [o, v] (host.objectSet o x v)
  structNew : ∀ name, MakesNoRefs R [] (host.structNew name)
  unary : ∀ op v, MakesNoRefs R [v] (host.unary op v)
  binary : ∀ op v w, MakesNoRefs R [v, w] (host.binary op v w)
  special : ∀ name f, host.special name = some f → ∀ args, LeavesStorage R args (Value.Refers R) (f args)
  builtin : ∀ name f, host.builtin name = some f → ∀ args, LeavesStorage R args (Value.Refers R) (f args)
  asm : ∀ text frame, LeavesStorage R [] (fun _ _ => False) (host.asm text frame)

/-! ## The triple -/

/-- In runs all of whose function entries satisfy `C`: from a state satisfying `P`, nothing unassigned is read,
    and a normal end satisfies `Q`. -/
structure Guarded {α : Type} (C : String × List String → Prop) (P : State H V → Prop) (m : M H V α)
    (Q : α → State H V → Prop) : Prop where
  entries : ∀ s, s.entries ⊆ (finalState (m s)).entries
  reads : ∀ s, P s → (∀ e ∈ (finalState (m s)).entries, C e) →
    (finalState (m s)).unassignedReads = s.unassignedReads
  ends : ∀ s, P s → (∀ e ∈ (finalState (m s)).entries, C e) → ∀ a s', m s = .ok a s' → Q a s'

namespace Guarded

variable {α β : Type} {C : String × List String → Prop} {P P' : State H V → Prop}

theorem conseq {m : M H V α} {Q Q' : α → State H V → Prop} (h : Guarded C P m Q) (hP : ∀ s, P' s → P s)
    (hQ : ∀ a s, Q a s → Q' a s) : Guarded C P' m Q' where
  entries := h.entries
  reads := fun s hs => h.reads s (hP s hs)
  ends := fun s hs hc a s' hm => hQ a s' (h.ends s (hP s hs) hc a s' hm)

theorem pure {a : α} {Q : α → State H V → Prop} (h : ∀ s, P s → Q a s) :
    Guarded C P (Pure.pure a : M H V α) Q where
  entries := fun _ _ he => he
  reads := fun _ _ _ => rfl
  ends := by
    intro s hs _ b s' hb
    cases hb
    exact h s hs

theorem throw {e : Stop} {Q : α → State H V → Prop} :
    Guarded C P (MonadExcept.throw e : M H V α) Q where
  entries := fun _ _ he => he
  reads := fun _ _ _ => rfl
  ends := by
    intro s _ _ b s' hb
    cases hb

theorem bind {m : M H V α} {f : α → M H V β} {Q : α → State H V → Prop} {S : β → State H V → Prop}
    (hm : Guarded C P m Q) (hf : ∀ a, Guarded C (Q a) (f a) S) : Guarded C P (m >>= f) S := by
  -- The state a sequence ends in, by how its first part ends.
  have final : ∀ s, (∃ a t, m s = .ok a t ∧ finalState ((m >>= f) s) = finalState (f a t)) ∨
      ∃ e t, m s = .error e t ∧ finalState ((m >>= f) s) = t := by
    intro s
    show (∃ a t, m s = .ok a t ∧ finalState (EStateM.bind m f s) = _) ∨
      ∃ e t, m s = .error e t ∧ finalState (EStateM.bind m f s) = _
    unfold EStateM.bind
    cases hms : m s with
    | ok a t => exact .inl ⟨a, t, rfl, rfl⟩
    | error e t => exact .inr ⟨e, t, rfl, rfl⟩
  refine ⟨fun s => ?_, fun s hs hc => ?_, fun s hs hc b s' hb => ?_⟩
  · have hfirst := hm.entries s
    rcases final s with ⟨a, t, hms, hfin⟩ | ⟨e, t, hms, hfin⟩
    · rw [hms] at hfirst
      rw [hfin]
      exact fun x hx => (hf a).entries t (hfirst hx)
    · rw [hms] at hfirst
      rw [hfin]
      exact hfirst
  · rcases final s with ⟨a, t, hms, hfin⟩ | ⟨e, t, hms, hfin⟩
    · rw [hfin] at hc ⊢
      have hct : ∀ x ∈ (finalState (m s)).entries, C x := by
        rw [hms]
        exact fun x hx => hc x ((hf a).entries t hx)
      have hread := hm.reads s hs hct
      rw [hms] at hread
      rw [(hf a).reads t (hm.ends s hs hct a t hms) hc]
      exact hread
    · rw [hfin] at hc ⊢
      have hread := hm.reads s hs (by rw [hms]; exact hc)
      rw [hms] at hread
      exact hread
  · obtain ⟨a, t, hms, hb'⟩ := bind_ok_iff.mp hb
    have hct : ∀ x ∈ (finalState (f a t)).entries, C x := by
      rcases final s with ⟨a', t', hms', hfin⟩ | ⟨e, t', hms', -⟩
      · rw [hms] at hms'
        cases hms'
        rw [hfin] at hc
        exact hc
      · rw [hms] at hms'
        cases hms'
    have hmt : ∀ x ∈ (finalState (m s)).entries, C x := by
      rw [hms]
      exact fun x hx => hct x ((hf a).entries t hx)
    exact (hf a).ends t (hm.ends s hs hmt a t hms) hct b s' hb'

/-- A precondition that picks one of several. -/
theorem exists_of {ι : Type} {φ : ι → Prop} {Ps : ι → State H V → Prop} {m : M H V α}
    {Q : α → State H V → Prop} (hgrow : ∀ s, s.entries ⊆ (finalState (m s)).entries)
    (h : ∀ i, φ i → Guarded C (Ps i) m Q) : Guarded C (fun s => ∃ i, φ i ∧ Ps i s) m Q where
  entries := hgrow
  reads := fun s ⟨i, hi, hs⟩ => (h i hi).reads s hs
  ends := fun s ⟨i, hi, hs⟩ => (h i hi).ends s hs

/-- The part of a triple that needs no precondition. -/
theorem ofEntries {m : M H V α} {Q : α → State H V → Prop}
    (hgrow : ∀ s, s.entries ⊆ (finalState (m s)).entries) : Guarded C (fun _ => False) m Q where
  entries := hgrow
  reads := fun _ hs => hs.elim
  ends := fun _ hs => hs.elim

theorem entries_bind {m : M H V α} {f : α → M H V β} (hm : ∀ s, s.entries ⊆ (finalState (m s)).entries)
    (hf : ∀ a s, s.entries ⊆ (finalState (f a s)).entries) (s : State H V) :
    s.entries ⊆ (finalState ((m >>= f) s)).entries := by
  have h : Guarded (fun _ => True) (fun _ => False) (m >>= f) fun _ _ => True :=
    (ofEntries (Q := fun _ _ => False) hm).bind fun a => ofEntries (hf a)
  exact h.entries s

end Guarded

/-! ## The invariant -/

/-- Everything referred to is assigned, and so is everything in `A`. -/
def Inv (R : HostRefs H V) (A : Addr → Prop) (s : State H V) : Prop :=
  (∀ a, s.Refers R a → Assigned s a) ∧ ∀ a, A a → Assigned s a

theorem Inv.weaken {R : HostRefs H V} {A B : Addr → Prop} {s : State H V} (h : Inv R A s)
    (hAB : ∀ a, B a → A a) : Inv R B s := ⟨h.1, fun a ha => h.2 a (hAB a ha)⟩

/-- The computation keeps the invariant for `A`, and its result refers only to assigned storage. -/
def Yields {α : Type} (C : String × List String → Prop) (R : HostRefs H V) (refs : α → Addr → Prop)
    (A : Addr → Prop) (m : M H V α) : Prop :=
  Guarded C (Inv R A) m fun x => Inv R fun a => A a ∨ refs x a

/-- Results that hold no reference. -/
def noRefs {α : Type} : α → Addr → Prop := fun _ _ => False

namespace Yields

variable {α β : Type} {C : String × List String → Prop} {R : HostRefs H V} {A : Addr → Prop}
  {refs : α → Addr → Prop}

theorem pure {x : α} (h : ∀ a, refs x a → A a) : Yields C R refs A (Pure.pure x : M H V α) :=
  Guarded.pure fun _ hs => hs.weaken fun a ha => ha.elim id (h a)

theorem throw {e : Stop} : Yields C R refs A (MonadExcept.throw e : M H V α) := Guarded.throw

theorem bind {refs' : β → Addr → Prop} {m : M H V α} {f : α → M H V β} (hm : Yields C R refs A m)
    (hf : ∀ x, Yields C R refs' (fun a => A a ∨ refs x a) (f x)) : Yields C R refs' A (m >>= f) :=
  Guarded.bind hm fun x => (hf x).conseq (fun _ hs => hs) fun _ _ hs =>
    hs.weaken fun _ ha => ha.imp_left .inl

theorem liftHost {args : List (Value V)} {m : HostM H (Value V)} (hm : MakesNoRefs R args m)
    (hA : ∀ a, Refer R args a → A a) : Yields C R (Value.Refers R) A (Vnt.liftHost m) := by
  -- A host operation changes nothing but the host's memory.
  have final : ∀ s : State H V, ∃ heap, finalState (Vnt.liftHost m s) = { s with heap } := by
    intro s
    unfold Vnt.liftHost
    split
    · exact ⟨_, rfl⟩
    · exact ⟨_, rfl⟩
  refine ⟨fun s => ?_, fun s _ _ => ?_, fun s hs _ v s' hv => ?_⟩
  · obtain ⟨heap, hfin⟩ := final s
    rw [hfin]
    exact fun _ he => he
  · obtain ⟨heap, hfin⟩ := final s
    rw [hfin]
  · unfold Vnt.liftHost at hv
    split at hv
    · rename_i w heap hw
      cases hv
      have given : ∀ a, v.Refers R a ∨ R.heap heap a → Assigned s a := by
        intro a ha
        rcases hm _ _ _ hw a ha with h | h
        · exact hs.1 a (.inl h)
        · exact hs.2 a (hA a h)
      refine ⟨fun a ha => ?_, fun a ha => ?_⟩
      · rcases ha with ha | ha
        · exact given a (.inr ha)
        · exact hs.1 a (.inr ha)
      · rcases ha with ha | ha
        · exact hs.2 a ha
        · exact given a (.inl ha)
    · cases hv

theorem ofStorage {args : List (Value V)} {m : M H V α} (hm : LeavesStorage R args refs m)
    (hA : ∀ a, Refer R args a → A a) : Yields C R refs A m := by
  refine ⟨fun s => ?_, fun s _ _ => (hm s).1, fun s hs _ r s' hr => ?_⟩
  · rw [(hm s).2.1]
    exact fun _ he => he
  · obtain ⟨hmono, hrefs⟩ := (hm s).2.2 r s' hr
    have given : ∀ a, refs r a ∨ s'.Refers R a → Assigned s' a := by
      intro a ha
      rcases hrefs a ha with h | h
      · exact hmono a (hs.1 a h)
      · exact hmono a (hs.2 a (hA a h))
    refine ⟨fun a ha => given a (.inr ha), fun a ha => ?_⟩
    rcases ha with ha | ha
    · exact hmono a (hs.2 a ha)
    · exact given a (.inl ha)

theorem readVar {b : Addr} (hb : A b) : Yields C R (Value.Refers R) A (Vnt.readVar b : M H V (Value V)) := by
  -- The only step that could write down an unassigned read.
  have final : ∀ s : State H V, (∃ v, s.vars b = some v ∧ Vnt.readVar b s = .ok v s) ∨
      (s.vars b = none ∧ (finalState (Vnt.readVar b s)).entries = s.entries) := by
    intro s
    unfold Vnt.readVar
    cases hv : s.vars b with
    | some v => exact .inl ⟨v, rfl, rfl⟩
    | none => exact .inr ⟨rfl, rfl⟩
  have assigned : ∀ s : State H V, Inv R A s → ∃ v, s.vars b = some v ∧ Vnt.readVar b s = .ok v s := by
    intro s hs
    rcases final s with h | ⟨hnone, -⟩
    · exact h
    · have := hs.2 b hb
      simp [Assigned, hnone] at this
  refine ⟨fun s => ?_, fun s hs _ => ?_, fun s hs _ v s' hv => ?_⟩
  · rcases final s with ⟨v, -, hr⟩ | ⟨-, he⟩
    · rw [hr]
      exact fun _ he => he
    · rw [he]
      exact fun _ he => he
  · obtain ⟨v, -, hr⟩ := assigned s hs
    rw [hr]
    rfl
  · obtain ⟨w, hw, hr⟩ := assigned s hs
    rw [hr] at hv
    cases hv
    exact ⟨hs.1, fun a ha => ha.elim (hs.2 a) fun ha => hs.1 a (.inr ⟨b, v, hw, ha⟩)⟩

/-- A store assigns its cell. -/
theorem writeVar {b : Addr} {v : Value V} (hv : ∀ a, v.Refers R a → A a) :
    Guarded C (Inv R A) (Vnt.writeVar b v : M H V Unit) fun _ => Inv R fun a => A a ∨ a = b := by
  refine ⟨fun s _ he => he, fun s _ _ => rfl, fun s hs _ r s' hr => ?_⟩
  cases hr
  have mono : ∀ a, Assigned s a → Assigned
      { s with vars := fun c => if c = b then some v else s.vars c } a := by
    intro a ha
    simp only [Assigned]
    split
    · rfl
    · exact ha
  refine ⟨fun a ha => mono a ?_, fun a ha => ?_⟩
  · rcases ha with ha | ⟨c, w, hw, ha⟩
    · exact hs.1 a (.inl ha)
    · simp only at hw
      split at hw
      · cases hw
        exact hs.2 a (hv a ha)
      · exact hs.1 a (.inr ⟨c, w, hw, ha⟩)
  · rcases ha with ha | rfl
    · exact mono a (hs.2 a ha)
    · simp [Assigned]

theorem record {e : Event V} : Yields C R noRefs A (Vnt.record e : M H V Unit) := by
  refine ⟨fun s _ he => he, fun s _ _ => rfl, fun s hs _ r s' hr => ?_⟩
  cases hr
  exact ⟨hs.1, fun a ha => ha.elim (hs.2 a) False.elim⟩

theorem printValue {host : Host H V} {v : Value V} : Yields C R noRefs A (Vnt.printValue host v) := by
  refine ⟨fun s _ he => he, fun s _ _ => rfl, fun s hs _ r s' hr => ?_⟩
  cases hr
  exact ⟨hs.1, fun a ha => ha.elim (hs.2 a) False.elim⟩

theorem intResult {message : String} {r : Option Int64} :
    Yields C R (Value.Refers R) A (Vnt.intResult message r : M H V (Value V)) := by
  cases r with
  | none => exact throw
  | some z => exact pure (fun _ h => h.elim)

theorem intBinary {op : BinaryOperator} {x y : Int64} :
    Yields C R (Value.Refers R) A (Vnt.intBinary op x y : M H V (Value V)) := by
  cases op <;> simp only [Vnt.intBinary]
  all_goals first | exact intResult | exact pure (fun _ h => h.elim) | exact throw | skip
  all_goals
    split
    · exact throw
    · exact intResult

theorem floatBinary {f : FloatUnit} {op : BinaryOperator} {x y : Double} :
    Yields C R (Value.Refers R) A (Vnt.floatBinary f op x y : M H V (Value V)) := by
  cases op <;> simp only [Vnt.floatBinary]
  all_goals first | exact pure (fun _ h => h.elim) | exact throw | skip
  split
  · exact throw
  · exact pure (fun _ h => h.elim)

section Host

variable {host : Host H V} (laws : HostLaws host R)

include laws

theorem binaryValue {op : BinaryOperator} {v w : Value V} (hA : ∀ a, Refer R [v, w] a → A a) :
    Yields C R (Value.Refers R) A (Vnt.binaryValue host op v w) := by
  unfold Vnt.binaryValue
  split
  · exact intBinary
  · exact floatBinary
  · split
    · exact pure (fun _ h => h.elim)
    · exact pure (fun _ h => h.elim)
    · exact liftHost (laws.binary _ _ _) hA
  · exact liftHost (laws.binary _ _ _) hA

theorem unaryValue {op : UnaryOperator} {v : Value V} (hA : ∀ a, Refer R [v] a → A a) :
    Yields C R (Value.Refers R) A (Vnt.unaryValue host op v) := by
  unfold Vnt.unaryValue
  split
  · exact pure (fun _ h => h.elim)
  · exact intResult
  · exact pure (fun _ h => h.elim)
  · exact liftHost (laws.unary _ _) hA

end Host

theorem truth {v : Value V} : Yields C R noRefs A (Vnt.truth v : M H V Bool) := by
  unfold Vnt.truth
  split
  · exact pure (fun _ h => h.elim)
  · exact throw

/-- A reference that is held points to assigned storage. -/
theorem deref {v : Value V} (hA : ∀ a, v.Refers R a → A a) :
    Yields C R (Value.Refers R) A (Vnt.deref v : M H V (Value V)) := by
  unfold Vnt.deref
  split
  · exact readVar (hA _ rfl)
  · exact throw

theorem first {ms : List (M H V α)} (hms : ∀ m ∈ ms, Yields C R refs A m) : Yields C R refs A (Vnt.first ms) := by
  cases ms with
  | nil => exact throw
  | cons m ms => exact hms m List.mem_cons_self

end Yields

end Vnt
