import Mathlib.Data.List.Basic

/-!
# `Lib.Prog` — programs over a state, and what a run of one establishes

`Prog σ ε α` runs from a state of type `σ` and either stops with a fault or returns a value and a new state.
`Sat m s Q` is total correctness: from `s` the program `m` returns, and `Q` holds of what it returns. The rules
follow the way programs are built: sequencing (`Sat.bind`), branching (`Sat.ite`), weakening (`Sat.mono`).
-/

namespace Vnt.Lib

/-- A program over states `σ` with faults `ε`. -/
def Prog (σ ε α : Type) : Type := σ → Except ε (α × σ)

namespace Prog

variable {σ ε α β : Type}

instance : Monad (Prog σ ε) where
  pure a := fun s => .ok (a, s)
  bind m f := fun s =>
    match m s with
    | .ok (a, s') => f a s'
    | .error e => .error e

/-- The current state. -/
def get : Prog σ ε σ := fun s => .ok (s, s)

/-- Change the state. -/
def modify (f : σ → σ) : Prog σ ε Unit := fun s => .ok ((), f s)

/-- Stop. -/
def fault (e : ε) : Prog σ ε α := fun _ => .error e

theorem bind_run (m : Prog σ ε α) (f : α → Prog σ ε β) (s : σ) :
    (m >>= f) s = match m s with
      | .ok (a, s') => f a s'
      | .error e => .error e := rfl

theorem bind_run_ok {m : Prog σ ε α} {f : α → Prog σ ε β} {s s' : σ} {a : α} (h : m s = .ok (a, s')) :
    (m >>= f) s = f a s' := by
  rw [bind_run, h]

/-- From `s` the program returns, with `Q` true of the value and the state it returns. -/
def Sat (m : Prog σ ε α) (s : σ) (Q : α → σ → Prop) : Prop := ∃ a s', m s = .ok (a, s') ∧ Q a s'

theorem Sat.of_run {m : Prog σ ε α} {s s' : σ} {a : α} {Q : α → σ → Prop} (h : m s = .ok (a, s')) (hq : Q a s') :
    Sat m s Q := ⟨a, s', h, hq⟩

theorem Sat.pure {a : α} {s : σ} {Q : α → σ → Prop} (h : Q a s) : Sat (Pure.pure a : Prog σ ε α) s Q :=
  ⟨a, s, rfl, h⟩

theorem Sat.get {s : σ} {Q : σ → σ → Prop} (h : Q s s) : Sat (Prog.get : Prog σ ε σ) s Q := ⟨s, s, rfl, h⟩

theorem Sat.modify {f : σ → σ} {s : σ} {Q : Unit → σ → Prop} (h : Q () (f s)) :
    Sat (Prog.modify f : Prog σ ε Unit) s Q := ⟨(), f s, rfl, h⟩

theorem Sat.bind {m : Prog σ ε α} {f : α → Prog σ ε β} {s : σ} {Q : β → σ → Prop}
    (h : Sat m s fun a s' => Sat (f a) s' Q) : Sat (m >>= f) s Q := by
  obtain ⟨a, s', hm, b, s'', hf, hq⟩ := h
  exact ⟨b, s'', (bind_run_ok hm).trans hf, hq⟩

/-- A first step whose run is known. -/
theorem Sat.step {m : Prog σ ε α} {f : α → Prog σ ε β} {s s' : σ} {a : α} {Q : β → σ → Prop}
    (h : m s = .ok (a, s')) (hf : Sat (f a) s' Q) : Sat (m >>= f) s Q :=
  Sat.bind (.of_run h hf)

theorem Sat.mono {m : Prog σ ε α} {s : σ} {Q Q' : α → σ → Prop} (h : Sat m s Q)
    (hq : ∀ a s', Q a s' → Q' a s') : Sat m s Q' := by
  obtain ⟨a, s', hm, h⟩ := h
  exact ⟨a, s', hm, hq a s' h⟩

/-- Sequencing after a program whose behaviour is known. -/
theorem Sat.seq {m : Prog σ ε α} {f : α → Prog σ ε β} {s : σ} {R : α → σ → Prop} {Q : β → σ → Prop}
    (h : Sat m s R) (hf : ∀ a s', R a s' → Sat (f a) s' Q) : Sat (m >>= f) s Q :=
  Sat.bind (h.mono hf)

theorem Sat.ite {c : Prop} [Decidable c] {m m' : Prog σ ε α} {s : σ} {Q : α → σ → Prop}
    (hc : c → Sat m s Q) (hn : ¬ c → Sat m' s Q) : Sat (if c then m else m') s Q := by
  by_cases h : c
  · rw [if_pos h]
    exact hc h
  · rw [if_neg h]
    exact hn h

/-! ## Loops -/

/-- `while cond { body }`, for a number of turns. -/
def whileDo (endless : ε) (cond : Prog σ ε Bool) (body : Prog σ ε Unit) : Nat → Prog σ ε Unit
  | 0 => fault endless
  | turns + 1 => do
      if ← cond then do
        body
        whileDo endless cond body turns
      else pure ()

/-- Total correctness of a loop that takes `n` turns: `P k` holds in front of turn `k`. -/
theorem Sat.count {endless : ε} {cond : Prog σ ε Bool} {body : Prog σ ε Unit} {turns : Nat} {s : σ} (P : Nat → σ → Prop)
    (n : Nat) (hcond : ∀ k s, k ≤ n → P k s → Sat cond s fun b t => b = decide (k < n) ∧ P k t)
    (hbody : ∀ k s, k < n → P k s → Sat body s fun _ t => P (k + 1) t) (hstart : P 0 s) (hturns : n < turns) :
    Sat (whileDo endless cond body turns) s fun _ t => P n t := by
  have hall : ∀ (turns : Nat) {k : Nat} {s : σ}, k ≤ n → n < k + turns → P k s →
      Sat (whileDo endless cond body turns) s fun _ t => P n t := by
    intro turns
    induction turns with
    | zero =>
        intro k s hk hturns _
        exact absurd hturns (Nat.not_lt.mpr hk)
    | succ turns ih =>
        intro k s hk hturns hP
        apply Sat.seq (hcond k s hk hP)
        rintro b t ⟨hb, hPt⟩
        rw [hb]
        by_cases hlt : k < n
        · rw [decide_eq_true hlt]
          exact Sat.seq (hbody k t hlt hPt) fun _ u hPu => ih hlt (by omega) hPu
        · have hkn : k = n := Nat.le_antisymm hk (Nat.not_lt.mp hlt)
          rw [decide_eq_false hlt, ← hkn]
          exact .pure hPt
  exact hall turns (Nat.zero_le n) (by omega) hstart

/-- One turn for each member of a list. -/
def forEach (body : β → Prog σ ε Unit) : List β → Prog σ ε Unit
  | [] => Pure.pure ()
  | b :: bs => do
      body b
      forEach body bs

theorem forEach_run {body : β → Prog σ ε Unit} {b : β} {s t : σ} (h : body b s = .ok ((), t)) (bs : List β) :
    forEach body (b :: bs) s = forEach body bs t := bind_run_ok h

end Prog

end Vnt.Lib

/-!
## Programs that raise a flag and go on

Instead of stopping at an error such a program sets a flag in its state and goes on with whatever it has. What it does behind
the flag does not matter as long as the flag stays up (`Keeps`); what counts are its quiet runs, those that end with the flag
down, and these are read off the program step by step (`quiet_bind`, `quiet_while`). A program without a loop also returns
from every state (`Steady`).
-/

namespace Vnt.Lib.Prog

variable {σ ε α β : Type} {flag : σ → Bool} {m m' : Prog σ ε α} {f : α → Prog σ ε β} {s s' s'' : σ} {a a' : α} {b : β}

/-- The flag, once up, stays up. -/
def Keeps (flag : σ → Bool) (m : Prog σ ε α) : Prop := ∀ s a s', m s = .ok (a, s') → flag s = true → flag s' = true

theorem Keeps.pure (a : α) : Keeps flag (Pure.pure a : Prog σ ε α) := by
  intro s b s' hrun hup
  cases hrun
  exact hup

theorem Keeps.bind (hm : Keeps flag m) (hf : ∀ a, Keeps flag (f a)) : Keeps flag (m >>= f) := by
  intro s b s'' hrun hup
  rw [bind_run] at hrun
  cases hfirst : m s with
  | error e =>
      rw [hfirst] at hrun
      cases hrun
  | ok out =>
      rw [hfirst] at hrun
      exact hf out.1 out.2 b s'' hrun (hm s out.1 out.2 hfirst hup)

theorem Keeps.ite {c : Prop} [Decidable c] (hm : Keeps flag m) (hm' : Keeps flag m') : Keeps flag (if c then m else m') := by
  by_cases hc : c
  · rwa [if_pos hc]
  · rwa [if_neg hc]

theorem Keeps.whileDo {endless : ε} {cond : Prog σ ε Bool} {body : Prog σ ε Unit} (hcond : Keeps flag cond)
    (hbody : Keeps flag body) (turns : Nat) : Keeps flag (whileDo endless cond body turns) := by
  induction turns with
  | zero =>
      intro s b s' hrun
      cases hrun
  | succ turns ih => exact hcond.bind fun b => (hbody.bind fun _ => ih).ite (.pure ())

/-- A run that ends with the flag down. -/
def Quiet (flag : σ → Bool) (m : Prog σ ε α) (s : σ) (a : α) (s' : σ) : Prop := m s = .ok (a, s') ∧ flag s' = false

/-- The flag is down at the end only if it was down at the start. -/
theorem Keeps.down (hm : Keeps flag m) (h : Quiet flag m s a s') : flag s = false := by
  apply Bool.eq_false_iff.mpr
  intro hup
  exact Bool.eq_false_iff.mp h.2 (hm s a s' h.1 hup)

theorem quiet_pure : Quiet flag (Pure.pure a : Prog σ ε α) s a' s' ↔ a' = a ∧ s' = s ∧ flag s = false := by
  constructor
  · rintro ⟨hrun, hdown⟩
    cases hrun
    exact ⟨rfl, rfl, hdown⟩
  · rintro ⟨rfl, rfl, hdown⟩
    exact ⟨rfl, hdown⟩

/-- A quiet run of a sequence is a quiet run of each part. -/
theorem quiet_bind (hf : ∀ a, Keeps flag (f a)) :
    Quiet flag (m >>= f) s b s'' ↔ ∃ a s', Quiet flag m s a s' ∧ Quiet flag (f a) s' b s'' := by
  constructor
  · rintro ⟨hrun, hdown⟩
    rw [bind_run] at hrun
    cases hm : m s with
    | error e =>
        rw [hm] at hrun
        cases hrun
    | ok out =>
        obtain ⟨a, s'⟩ := out
        rw [hm] at hrun
        exact ⟨a, s', ⟨hm, (hf a).down ⟨hrun, hdown⟩⟩, hrun, hdown⟩
  · rintro ⟨a, s', hm, hrest⟩
    exact ⟨(bind_run_ok hm.1).trans hrest.1, hrest.2⟩

/-- Reading the state is no step. -/
theorem quiet_get {f : σ → Prog σ ε β} : Quiet flag (Prog.get >>= f) s b s' ↔ Quiet flag (f s) s b s' := Iff.rfl

/-- A turn of a loop whose condition only looks at the state. -/
theorem quiet_while {endless : ε} {cond : Prog σ ε Bool} {body : Prog σ ε Unit} {c : Bool} {turns : Nat}
    (hcond : cond s = .ok (c, s)) (hkeeps : Keeps flag cond) (hbody : Keeps flag body) :
    Quiet flag (whileDo endless cond body (turns + 1)) s () s'' ↔
      if c then ∃ s', Quiet flag body s () s' ∧ Quiet flag (whileDo endless cond body turns) s' () s''
      else s'' = s ∧ flag s = false := by
  have hturn : whileDo endless cond body (turns + 1) s =
      (if c then body >>= fun _ => whileDo endless cond body turns else Pure.pure ()) s := bind_run_ok hcond
  unfold Quiet
  rw [hturn]
  cases c with
  | true =>
      refine (quiet_bind fun _ => Keeps.whileDo hkeeps hbody turns).trans ?_
      constructor
      · rintro ⟨_, s', hfirst, hrest⟩
        exact ⟨s', hfirst, hrest⟩
      · rintro ⟨s', hfirst, hrest⟩
        exact ⟨(), s', hfirst, hrest⟩
  | false =>
      refine quiet_pure.trans ?_
      exact ⟨fun h => h.2, fun h => ⟨rfl, h⟩⟩

/-! ## Programs that return -/

/-- The flag stays up, and the program returns from every state. -/
structure Steady (flag : σ → Bool) (m : Prog σ ε α) : Prop where
  keeps : Keeps flag m
  returns : ∀ s, ∃ a s', m s = .ok (a, s')

theorem Steady.pure (a : α) : Steady flag (Pure.pure a : Prog σ ε α) := ⟨.pure a, fun s => ⟨a, s, rfl⟩⟩

theorem Steady.get : Steady flag (Prog.get : Prog σ ε σ) where
  keeps := by
    intro s a s' hrun hup
    cases hrun
    exact hup
  returns := fun s => ⟨s, s, rfl⟩

theorem Steady.modify {g : σ → σ} (h : ∀ s, flag s = true → flag (g s) = true) :
    Steady flag (Prog.modify g : Prog σ ε Unit) where
  keeps := by
    intro s a s' hrun hup
    cases hrun
    exact h s hup
  returns := fun s => ⟨(), g s, rfl⟩

theorem Steady.bind (hm : Steady flag m) (hf : ∀ a, Steady flag (f a)) : Steady flag (m >>= f) where
  keeps := hm.keeps.bind fun a => (hf a).keeps
  returns := by
    intro s
    obtain ⟨a, s', hrun⟩ := hm.returns s
    obtain ⟨b, s'', hrest⟩ := (hf a).returns s'
    exact ⟨b, s'', (bind_run_ok hrun).trans hrest⟩

theorem Steady.ite {c : Prop} [Decidable c] (hm : Steady flag m) (hm' : Steady flag m') :
    Steady flag (if c then m else m') := by
  by_cases hc : c
  · rwa [if_pos hc]
  · rwa [if_neg hc]

end Vnt.Lib.Prog

/-!
## Inverting successful computations

A chain of `Except` steps that succeeds has succeeded at every step; `bind_eq_ok` peels one step off.
-/

namespace Vnt.Lib

theorem bind_eq_ok {ε α β : Type} {x : Except ε α} {f : α → Except ε β} {b : β} :
    (x >>= f) = .ok b ↔ ∃ a, x = .ok a ∧ f a = .ok b := by
  cases x with
  | error e =>
      constructor
      · intro h; cases h
      · rintro ⟨_, h, _⟩; cases h
  | ok a =>
      constructor
      · intro h; exact ⟨a, rfl, h⟩
      · rintro ⟨_, h, hf⟩; cases h; exact hf

theorem throw_ne_ok {ε α : Type} {e : ε} {a : α} : (throw e : Except ε α) ≠ .ok a := by
  intro h
  cases h

theorem pure_eq_ok {ε α : Type} {a b : α} : (pure a : Except ε α) = .ok b ↔ a = b := by
  constructor
  · intro h; cases h; rfl
  · rintro rfl; rfl

end Vnt.Lib
