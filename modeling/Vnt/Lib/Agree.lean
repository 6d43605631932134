import Mathlib.Data.List.Basic

/-!
# `Lib.Agree` — equality of stateful programs under a precondition

A rewriting pass rarely preserves a program outright: it preserves it from the states in which the facts
it relied on are true. `Agree P m m' Q` says that two programs of the error-and-state monad do exactly
the same from every state satisfying `P`, and that a normal end of them satisfies `Q`. The rules below
compose such facts along `bind`; `Keeps` is the one-program half.
-/

namespace Vnt.Lib

universe u

variable {ε σ α β : Type u}

/-- From every state satisfying `P`, a normal end of `m` satisfies `Q`. -/
def Keeps (P : σ → Prop) (m : EStateM ε σ α) (Q : α → σ → Prop) : Prop :=
  ∀ s, P s → ∀ a s', m s = .ok a s' → Q a s'

/-- From every state satisfying `P` the programs `m` and `m'` give the same result, and a normal end
    satisfies `Q`. -/
def Agree (P : σ → Prop) (m m' : EStateM ε σ α) (Q : α → σ → Prop) : Prop :=
  ∀ s, P s → m s = m' s ∧ ∀ a s', m s = .ok a s' → Q a s'

theorem bind_ok_iff {m : EStateM ε σ α} {f : α → EStateM ε σ β} {s s' : σ} {b : β} :
    (m >>= f) s = .ok b s' ↔ ∃ a t, m s = .ok a t ∧ f a t = .ok b s' := by
  show EStateM.bind m f s = _ ↔ _
  unfold EStateM.bind
  cases m s with
  | ok a t =>
      constructor
      · intro h; exact ⟨a, t, rfl, h⟩
      · rintro ⟨_, _, ⟨rfl, rfl⟩, h⟩; exact h
  | error e t =>
      constructor
      · intro h; exact absurd h (by simp)
      · rintro ⟨_, _, h, _⟩; exact absurd h (by simp)

theorem Keeps.bind {P : σ → Prop} {m : EStateM ε σ α} {f : α → EStateM ε σ β}
    {Q : α → σ → Prop} {R : β → σ → Prop} (hm : Keeps P m Q) (hf : ∀ a, Keeps (Q a) (f a) R) :
    Keeps P (m >>= f) R := by
  intro s hs b s' h
  obtain ⟨a, t, ha, hb⟩ := bind_ok_iff.mp h
  exact hf a t (hm s hs a t ha) b s' hb

theorem Keeps.pure {P : σ → Prop} {a : α} {Q : α → σ → Prop} (h : ∀ s, P s → Q a s) :
    Keeps P (Pure.pure a : EStateM ε σ α) Q := by
  intro s hs b s' hb
  cases hb
  exact h s hs

theorem Keeps.throw {P : σ → Prop} {e : ε} {Q : α → σ → Prop} :
    Keeps P (MonadExcept.throw e : EStateM ε σ α) Q := by
  intro s _ b s' hb
  cases hb

theorem Agree.refl {P : σ → Prop} {m : EStateM ε σ α} {Q : α → σ → Prop} (h : Keeps P m Q) :
    Agree P m m Q :=
  fun s hs => ⟨rfl, h s hs⟩

theorem Agree.keeps {P : σ → Prop} {m m' : EStateM ε σ α} {Q : α → σ → Prop}
    (h : Agree P m m' Q) : Keeps P m Q := fun s hs => (h s hs).2

theorem Agree.conseq {P P' : σ → Prop} {m m' : EStateM ε σ α} {Q Q' : α → σ → Prop}
    (h : Agree P m m' Q) (hP : ∀ s, P' s → P s) (hQ : ∀ a s, Q a s → Q' a s) : Agree P' m m' Q' :=
  fun s hs => ⟨(h s (hP s hs)).1, fun a s' hm => hQ a s' ((h s (hP s hs)).2 a s' hm)⟩

/-- Agreement composes along `bind`: the second halves need to agree only from the states the first half
    can end in. -/
theorem Agree.bind {P : σ → Prop} {m m' : EStateM ε σ α} {f f' : α → EStateM ε σ β}
    {Q : α → σ → Prop} {R : β → σ → Prop} (hm : Agree P m m' Q) (hf : ∀ a, Agree (Q a) (f a) (f' a) R) :
    Agree P (m >>= f) (m' >>= f') R := by
  intro s hs
  refine ⟨?_, Keeps.bind hm.keeps (fun a => (hf a).keeps) s hs⟩
  show EStateM.bind m f s = EStateM.bind m' f' s
  obtain ⟨he, hq⟩ := hm s hs
  unfold EStateM.bind
  rw [← he]
  cases hr : m s with
  | ok a t => exact (hf a t (hq a t hr)).1
  | error e t => rfl

theorem Agree.and_keeps {P : σ → Prop} {m m' : EStateM ε σ α} {Q Q' : α → σ → Prop}
    (h : Agree P m m' Q) (hk : Keeps P m Q') : Agree P m m' fun a s => Q a s ∧ Q' a s :=
  fun s hs => ⟨(h s hs).1, fun a s' hm => ⟨(h s hs).2 a s' hm, hk s hs a s' hm⟩⟩

/-- Programs that fail alike agree, whatever is asked of a normal end. -/
theorem Agree.throw {P : σ → Prop} {e : ε} {Q : α → σ → Prop} :
    Agree P (MonadExcept.throw e : EStateM ε σ α) (MonadExcept.throw e) Q := Agree.refl Keeps.throw

/-- Programs that agree from every state are equal. -/
theorem Agree.eq {m m' : EStateM ε σ α} {Q : α → σ → Prop} (h : Agree (fun _ => True) m m' Q) :
    m = m' := funext fun s => (h s trivial).1

end Vnt.Lib
