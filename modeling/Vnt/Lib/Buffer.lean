import Mathlib.Data.List.Basic

/-!
# `Lib.Buffer` — writing behind the last item of an allocation

A buffer has a capacity, which a write never goes past: one that has no room is a fault. `Extends` says what a stretch of
writes has added; the rules put the stretches together.
-/

namespace Vnt.Lib

variable {α ε : Type} {full : ε} {a : α} {s t : List α} {n : Nat}

/-- An allocation of `cap` cells, the first of which are written. -/
structure Buffer (α : Type) where
  text : List α
  cap : Nat
  fits : text.length ≤ cap

namespace Buffer

variable {b b' b'' : Buffer α}

/-- `buffer[len++] = a` -/
def put (full : ε) (b : Buffer α) (a : α) : Except ε (Buffer α) :=
  if h : b.text.length < b.cap then .ok ⟨b.text ++ [a], b.cap, by rw [List.length_append]; exact h⟩ else .error full

/-- `for (i = 0; i < n; ++i) buffer[len++] = a` -/
def putTimes (full : ε) (a : α) : Nat → Buffer α → Except ε (Buffer α)
  | 0, b => .ok b
  | n + 1, b => do
      let b ← b.put full a
      putTimes full a n b

/-- `memcpy(buffer + len, items, n)` -/
def putAll (full : ε) : List α → Buffer α → Except ε (Buffer α)
  | [], b => .ok b
  | a :: s, b => do
      let b ← b.put full a
      putAll full s b

/-- `buffer[len] = a`, for a terminator that the next write goes over. -/
def terminate (full : ε) (b : Buffer α) : Except ε (Buffer α) :=
  if b.text.length < b.cap then .ok b else .error full

/-- Another allocation for the same items. -/
def realloc (full : ε) (b : Buffer α) (cap : Nat) : Except ε (Buffer α) :=
  if h : b.text.length ≤ cap then .ok ⟨b.text, cap, h⟩ else .error full

/-- An allocation nothing is written to yet. -/
def fresh (cap : Nat) : Buffer α := ⟨[], cap, Nat.zero_le cap⟩

@[simp] theorem fresh_text (cap : Nat) : (fresh cap : Buffer α).text = [] := rfl

@[simp] theorem fresh_cap (cap : Nat) : (fresh cap : Buffer α).cap = cap := rfl

/-- `b'` is `b` with `s` behind it. -/
structure Extends (b : Buffer α) (s : List α) (b' : Buffer α) : Prop where
  text : b'.text = b.text ++ s
  cap : b'.cap = b.cap

namespace Extends

theorem refl (b : Buffer α) : b.Extends [] b := ⟨(List.append_nil _).symm, rfl⟩

theorem trans (h : b.Extends s b') (h' : b'.Extends t b'') : b.Extends (s ++ t) b'' := by
  refine ⟨?_, h'.cap.trans h.cap⟩
  rw [h'.text, h.text, List.append_assoc]

theorem length (h : b.Extends s b') : b'.text.length = b.text.length + s.length := by
  rw [h.text, List.length_append]

end Extends

theorem put_ok (h : b.text.length < b.cap) : ∃ b', b.put full a = .ok b' ∧ b.Extends [a] b' := by
  exact ⟨_, dif_pos h, rfl, rfl⟩

theorem putTimes_ok (n : Nat) : ∀ {b : Buffer α}, b.text.length + n ≤ b.cap →
    ∃ b', putTimes full a n b = .ok b' ∧ b.Extends (List.replicate n a) b' := by
  induction n with
  | zero =>
      intro b _
      exact ⟨b, rfl, .refl b⟩
  | succ n ih =>
      intro b hroom
      obtain ⟨b', hput, hext⟩ := @put_ok α ε full a b (by omega)
      have hlen := hext.length
      have hcap := hext.cap
      rw [List.length_singleton] at hlen
      obtain ⟨b'', htimes, hext'⟩ := @ih b' (by omega)
      refine ⟨b'', ?_, hext.trans hext'⟩
      rw [putTimes, hput]
      exact htimes

theorem putAll_ok (s : List α) : ∀ {b : Buffer α}, b.text.length + s.length ≤ b.cap →
    ∃ b', putAll full s b = .ok b' ∧ b.Extends s b' := by
  induction s with
  | nil =>
      intro b _
      exact ⟨b, rfl, .refl b⟩
  | cons a s ih =>
      intro b hroom
      rw [List.length_cons] at hroom
      obtain ⟨b', hput, hext⟩ := @put_ok α ε full a b (by omega)
      have hlen := hext.length
      have hcap := hext.cap
      rw [List.length_singleton] at hlen
      obtain ⟨b'', hall, hext'⟩ := @ih b' (by omega)
      refine ⟨b'', ?_, hext.trans hext'⟩
      rw [putAll, hput]
      exact hall

theorem terminate_ok (h : b.text.length < b.cap) : b.terminate full = .ok b := by
  rw [terminate, if_pos h]

theorem realloc_ok {cap : Nat} (h : b.text.length ≤ cap) :
    ∃ b', b.realloc full cap = .ok b' ∧ b'.text = b.text ∧ b'.cap = cap := by
  exact ⟨_, dif_pos h, rfl, rfl⟩

end Buffer

end Vnt.Lib
