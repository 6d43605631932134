import Mathlib.Data.List.Basic

/-!
# `Lib.Jumps` — a program that does what another one does, up to what it returns

Compiled code returns a machine where the program it was compiled from returns a value. `Refines R m x` says that the
two take the same steps in the shared state and fail alike, and that what they return is related by `R`.
-/

namespace Vnt.Lib

variable {ε σ α β γ δ : Type}

/-- `x` does what `m` does, and their results are related by `R`. -/
def Refines (R : α → β → Prop) (m : EStateM ε σ α) (x : EStateM ε σ β) : Prop :=
  ∀ s, match m s with
    | .ok a t => ∃ b, x s = .ok b t ∧ R a b
    | .error e t => x s = .error e t

namespace Refines

variable {R R' : α → β → Prop} {S : γ → δ → Prop} {m : EStateM ε σ α} {x : EStateM ε σ β}

protected theorem pure {a : α} {b : β} (h : R a b) : Refines R (Pure.pure a : EStateM ε σ α) (Pure.pure b) :=
  fun _ => ⟨b, rfl, h⟩

protected theorem throw {e : ε} : Refines R (MonadExcept.throw e : EStateM ε σ α) (MonadExcept.throw e) :=
  fun _ => rfl

/-- The two go on in related ways. -/
theorem bind {f : α → EStateM ε σ γ} {g : β → EStateM ε σ δ} (h : Refines R m x)
    (hf : ∀ a b, R a b → Refines S (f a) (g b)) : Refines S (m >>= f) (x >>= g) := by
  intro s
  have hs := h s
  show match EStateM.bind m f s with
    | .ok a t => ∃ b, EStateM.bind x g s = .ok b t ∧ S a b
    | .error e t => EStateM.bind x g s = .error e t
  unfold EStateM.bind
  revert hs
  cases m s with
  | ok a t =>
      rintro ⟨b, hx, hab⟩
      rw [hx]
      exact hf a b hab t
  | error e t =>
      intro hx
      rw [hx]

/-- Only the code goes on. -/
theorem finish {g : β → EStateM ε σ δ} {S : α → δ → Prop} (h : Refines R m x)
    (hg : ∀ a b, R a b → Refines S (Pure.pure a) (g b)) : Refines S m (x >>= g) := by
  have hall : Refines S (m >>= Pure.pure) (x >>= g) := h.bind hg
  rw [bind_pure] at hall
  exact hall

theorem refl (m : EStateM ε σ α) : Refines (fun a b => b = a) m m := by
  intro s
  cases m s with
  | ok a t => exact ⟨a, rfl, rfl⟩
  | error e t => rfl

end Refines

end Vnt.Lib

/-!
## Assembly text whose jumps go forward

A compiler that emits code for a tree writes it front to back, and the jumps inside one expression only go forward. Such
code runs by recursion over the text: a jump is a state in which lines are passed over until its label comes. A run may
end in that state, which is a jump out of the text.

An `Asm` is a piece of text that still asks for the number of its first label. What keeps the labels of two pieces apart
is `Owns`: apart from the labels it is given, a piece uses only numbers that it has drawn itself.
-/

namespace Vnt.Lib

variable {ε σ I C M : Type}

/-- A line of assembly text. -/
inductive Line (I C : Type) where
  | instr (i : I)
  | label (l : Nat)
  | jump (l : Nat)
  | branch (c : C) (l : Nat)

/-- The label that a line sets. -/
def Line.label? : Line I C → Option Nat
  | .label l => some l
  | _ => none

def labels (code : List (Line I C)) : List Nat := code.filterMap Line.label?

/-- What instructions do to the machine, and when a branch is taken. -/
structure Processor (ε σ I C M : Type) where
  step : I → M → EStateM ε σ M
  taken : C → M → EStateM ε σ Bool

variable {p : Processor ε σ I C M} {code : List (Line I C)} {s : M} {k l : Nat} {skip : Option Nat}

/-- Run the text, or pass over it up to the label `skip`. The result tells which label is still looked for. -/
def Processor.run (p : Processor ε σ I C M) : Option Nat → List (Line I C) → M → EStateM ε σ (Option Nat × M)
  | skip, [], s => pure (skip, s)
  | none, .instr i :: code, s => do
      let t ← p.step i s
      p.run none code t
  | none, .label _ :: code, s => p.run none code s
  | none, .jump l :: code, s => p.run (some l) code s
  | none, .branch c l :: code, s => do
      if ← p.taken c s then p.run (some l) code s else p.run none code s
  | some l, .label k :: code, s => p.run (if k = l then none else some l) code s
  | some l, .instr _ :: code, s => p.run (some l) code s
  | some l, .jump _ :: code, s => p.run (some l) code s
  | some l, .branch _ _ :: code, s => p.run (some l) code s

theorem run_append (p : Processor ε σ I C M) (code code' : List (Line I C)) : ∀ (skip : Option Nat) (s : M),
    p.run skip (code ++ code') s = p.run skip code s >>= fun r => p.run r.1 code' r.2 := by
  induction code with
  | nil => intro skip s; cases skip <;> rfl
  | cons line code ih =>
      intro skip s
      cases skip with
      | none =>
          cases line with
          | instr i =>
              show (p.step i s >>= fun t => p.run none (code ++ code') t) =
                (p.step i s >>= fun t => p.run none code t) >>= _
              simp only [ih, bind_assoc]
          | label k => exact ih none s
          | jump k => exact ih (some k) s
          | branch c k =>
              show (p.taken c s >>= fun b => if b then p.run (some k) (code ++ code') s
                  else p.run none (code ++ code') s) =
                (p.taken c s >>= fun b => if b then p.run (some k) code s else p.run none code s) >>= _
              rw [bind_assoc]
              congr 1
              funext b
              cases b
              · exact ih none s
              · exact ih (some k) s
      | some l => cases line <;> exact ih _ s

/-- Text without the label is passed over. -/
theorem run_pass (h : l ∉ labels code) : p.run (some l) code s = pure (some l, s) := by
  induction code with
  | nil => rfl
  | cons line code ih =>
      cases line with
      | label k =>
          have hmem : labels (Line.label k :: code) = k :: labels code := rfl
          rw [hmem, List.mem_cons, not_or] at h
          show p.run (if k = l then none else some l) code s = _
          rw [if_neg (Ne.symm h.1)]
          exact ih h.2
      | instr i => exact ih h
      | jump k => exact ih h
      | branch c k => exact ih h

/-- A piece of text, from the number of its first label on; with the first number after it. -/
def Asm (I C : Type) := Nat → List (Line I C) × Nat

namespace Asm

/-- Text without labels of its own. -/
def lines (code : List (Line I C)) : Asm I C := fun k => (code, k)

instance : Append (Asm I C) where
  append a b := fun k => ((a k).1 ++ (b (a k).2).1, (b (a k).2).2)

/-- Draw two labels. -/
def withLabels (f : Nat → Nat → Asm I C) : Asm I C := fun k => f k (k + 1) (k + 2)

/-- Run the piece whose labels begin with `k`. -/
def exec (p : Processor ε σ I C M) (a : Asm I C) (k : Nat) (skip : Option Nat) (s : M) : EStateM ε σ (Option Nat × M) :=
  p.run skip (a k).1 s

/-- Apart from `ls` the piece sets only labels it has drawn itself. -/
def Owns (ls : List Nat) (a : Asm I C) : Prop :=
  ∀ k, k ≤ (a k).2 ∧ ∀ l ∈ labels (a k).1, l ∈ ls ∨ (k ≤ l ∧ l < (a k).2)

variable {a b : Asm I C} {f : Nat → Nat → Asm I C} {ls : List Nat}

/-! ### Labels -/

theorem Owns.le (h : Owns ls a) (k : Nat) : k ≤ (a k).2 := (h k).1

theorem Owns.lines (h : ∀ l ∈ labels code, l ∈ ls) : Owns ls (lines code) :=
  fun k => ⟨Nat.le_refl k, fun l hl => Or.inl (h l hl)⟩

theorem Owns.append (ha : Owns ls a) (hb : Owns ls b) : Owns ls (a ++ b) := by
  intro k
  obtain ⟨hle, hall⟩ := ha k
  obtain ⟨hle', hall'⟩ := hb (a k).2
  refine ⟨Nat.le_trans hle hle', ?_⟩
  show ∀ l ∈ labels ((a k).1 ++ (b (a k).2).1), l ∈ ls ∨ (k ≤ l ∧ l < (b (a k).2).2)
  intro l hl
  rw [labels, List.filterMap_append, List.mem_append] at hl
  rcases hl with hl | hl
  · rcases hall l hl with hin | ⟨hfrom, hto⟩
    · exact Or.inl hin
    · exact Or.inr ⟨hfrom, Nat.lt_of_lt_of_le hto hle'⟩
  · rcases hall' l hl with hin | ⟨hfrom, hto⟩
    · exact Or.inl hin
    · exact Or.inr ⟨Nat.le_trans hle hfrom, hto⟩

theorem Owns.mono {ls' : List Nat} (ha : Owns ls a) (hsub : ∀ l ∈ ls, l ∈ ls') : Owns ls' a :=
  fun k => ⟨(ha k).1, fun l hl => ((ha k).2 l hl).imp_left (hsub l)⟩

theorem Owns.withLabels (h : ∀ k l, Owns (k :: l :: ls) (f k l)) : Owns ls (withLabels f) := by
  intro k
  obtain ⟨hle, hall⟩ := h k (k + 1) (k + 2)
  refine ⟨Nat.le_trans (Nat.le_add_right k 2) hle, ?_⟩
  intro l hl
  show l ∈ ls ∨ (k ≤ l ∧ l < (f k (k + 1) (k + 2)).2)
  rcases hall l hl with hin | ⟨hfrom, hto⟩
  · rcases List.mem_cons.mp hin with rfl | hin
    · exact Or.inr ⟨Nat.le_refl l, by omega⟩
    · rcases List.mem_cons.mp hin with rfl | hin
      · exact Or.inr ⟨Nat.le_succ k, by omega⟩
      · exact Or.inl hin
  · exact Or.inr ⟨by omega, hto⟩

/-! ### Runs -/

@[simp] theorem exec_append (s : M) : (a ++ b).exec p k skip s = a.exec p k skip s >>= fun r => b.exec p (a k).2 r.1 r.2 :=
  run_append p (a k).1 (b (a k).2).1 skip s

@[simp] theorem exec_lines (s : M) : (lines code).exec p k skip s = p.run skip code s := rfl

@[simp] theorem exec_withLabels (s : M) : (withLabels f).exec p k skip s = (f k (k + 1)).exec p (k + 2) skip s := rfl

@[simp] theorem append_snd (k : Nat) : ((a ++ b) k).2 = (b (a k).2).2 := rfl

@[simp] theorem lines_snd (code : List (Line I C)) (k : Nat) : (lines code k).2 = k := rfl

/-- A jump to an earlier label passes over the piece. -/
theorem Owns.exec_pass (h : Owns ls a) (hls : l ∉ ls) (hlt : l < k) : a.exec p k (some l) s = pure (some l, s) := by
  apply run_pass
  intro hl
  rcases (h k).2 l hl with hin | ⟨hfrom, -⟩
  · exact hls hin
  · exact absurd hlt (Nat.not_lt_of_le hfrom)

end Asm

end Vnt.Lib
