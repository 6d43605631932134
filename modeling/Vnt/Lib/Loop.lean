import Mathlib.Data.List.Basic

/-!
# `Lib.Loop` — loops that are left from the inside

A turn of a loop either goes on with a new state or leaves the loop with a result; the loop runs on fuel, and has no result
when the fuel is used up. With an invariant and a measure that goes down the fuel does not matter: `loop_total` for any
property of the result, `loop_eq` for a loop whose result is a function of the state that no turn changes.
-/

namespace Vnt.Lib

variable {ε σ ρ : Type}

/-- How a turn of a loop ends. -/
inductive Turn (σ ρ : Type) where
  | next (s : σ)
  | done (r : ρ)

def loop (endless : ε) (body : σ → Except ε (Turn σ ρ)) : Nat → σ → Except ε ρ
  | 0, _ => .error endless
  | fuel + 1, s => do
      match ← body s with
      | .next s => loop endless body fuel s
      | .done r => pure r

variable {endless : ε} {body : σ → Except ε (Turn σ ρ)} {fuel : Nat} {s s' : σ} {r : ρ}

theorem loop_next (h : body s = .ok (.next s')) : loop endless body (fuel + 1) s = loop endless body fuel s' := by
  rw [loop, h]
  rfl

theorem loop_done (h : body s = .ok (.done r)) : loop endless body (fuel + 1) s = .ok r := by
  rw [loop, h]
  rfl

/-- What a turn has to do from a state with the invariant: leave with a good result, or get closer to the end. -/
def Advances (Inv : σ → Prop) (Good : ρ → Prop) (measure : σ → Nat) (s : σ) : Turn σ ρ → Prop
  | .next s' => Inv s' ∧ measure s' < measure s
  | .done r => Good r

/-- Total correctness. -/
theorem loop_total {Inv : σ → Prop} {Good : ρ → Prop} {measure : σ → Nat}
    (hbody : ∀ s, Inv s → ∃ turn, body s = .ok turn ∧ Advances Inv Good measure s turn) (fuel : Nat) :
    ∀ {s : σ}, Inv s → measure s < fuel → ∃ r, loop endless body fuel s = .ok r ∧ Good r := by
  induction fuel with
  | zero =>
      intro s _ hfuel
      exact absurd hfuel (Nat.not_lt_zero _)
  | succ fuel ih =>
      intro s hinv hfuel
      obtain ⟨turn, hturn, hadvances⟩ := hbody s hinv
      cases turn with
      | next s' =>
          obtain ⟨hinv', hless⟩ := hadvances
          rw [loop_next hturn]
          exact ih hinv' (by omega)
      | done r =>
          rw [loop_done hturn]
          exact ⟨r, rfl, hadvances⟩

/-- A loop that computes `f`, which every turn keeps. -/
theorem loop_eq {Inv : σ → Prop} {f : σ → ρ} {measure : σ → Nat}
    (hbody : ∀ s, Inv s → ∃ turn, body s = .ok turn ∧
      Advances (fun s' => Inv s' ∧ f s' = f s) (fun r => r = f s) measure s turn) (hinv : Inv s) (hfuel : measure s < fuel) :
    loop endless body fuel s = .ok (f s) := by
  have hall : ∀ s', Inv s' ∧ f s' = f s → ∃ turn, body s' = .ok turn ∧
      Advances (fun t => Inv t ∧ f t = f s) (fun r => r = f s) measure s' turn := by
    rintro s' ⟨hinv', hsame⟩
    obtain ⟨turn, hturn, hadvances⟩ := hbody s' hinv'
    rw [hsame] at hadvances
    exact ⟨turn, hturn, hadvances⟩
  obtain ⟨r, hrun, rfl⟩ := loop_total hall fuel ⟨hinv, rfl⟩ hfuel
  exact hrun

/-- A loop that cannot be left but by a fault. -/
theorem loop_fails {Inv : σ → Prop} {measure : σ → Nat} {e : ε}
    (hbody : ∀ s, Inv s → body s = .error e ∨ ∃ s', body s = .ok (.next s') ∧ Inv s' ∧ measure s' < measure s) (fuel : Nat) :
    ∀ {s : σ}, Inv s → measure s < fuel → loop endless body fuel s = .error e := by
  induction fuel with
  | zero =>
      intro s _ hfuel
      exact absurd hfuel (Nat.not_lt_zero _)
  | succ fuel ih =>
      intro s hinv hfuel
      rcases hbody s hinv with herror | ⟨s', hnext, hinv', hless⟩
      · rw [loop, herror]
        rfl
      · rw [loop_next hnext]
        exact ih hinv' (by omega)

/-! ## Stretches of turns -/

/-- From `s` the loop comes to `s'` in at most `n` turns. -/
def Comes (body : σ → Except ε (Turn σ ρ)) (n : Nat) (s s' : σ) : Prop :=
  ∃ k, k ≤ n ∧ ∀ (endless : ε) fuel, loop endless body (fuel + k) s = loop endless body fuel s'

namespace Comes

variable {m n : Nat} {s'' : σ}

theorem refl (s : σ) : Comes body 0 s s := ⟨0, Nat.le_refl 0, fun _ _ => rfl⟩

theorem step (h : body s = .ok (.next s')) : Comes body 1 s s' := ⟨1, Nat.le_refl 1, fun _ _ => loop_next h⟩

theorem trans (h : Comes body m s s') (h' : Comes body n s' s'') : Comes body (m + n) s s'' := by
  obtain ⟨k, hk, hrun⟩ := h
  obtain ⟨k', hk', hrun'⟩ := h'
  refine ⟨k' + k, by omega, ?_⟩
  intro endless fuel
  rw [← Nat.add_assoc, hrun, hrun']

theorem mono (h : Comes body m s s') (hle : m ≤ n) : Comes body n s s' := by
  obtain ⟨k, hk, hrun⟩ := h
  exact ⟨k, Nat.le_trans hk hle, hrun⟩

/-- The last turn. -/
theorem finish (h : Comes body n s s') (hdone : body s' = .ok (.done r)) (hfuel : n < fuel) :
    loop endless body fuel s = .ok r := by
  obtain ⟨k, hk, hrun⟩ := h
  obtain ⟨rest, rfl⟩ : ∃ rest, fuel = rest + 1 + k := ⟨fuel - 1 - k, by omega⟩
  rw [hrun, loop_done hdone]

end Comes

end Vnt.Lib
