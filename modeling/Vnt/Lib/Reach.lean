import Mathlib.Data.List.Nodup
import Mathlib.Logic.Relation

/-!
# `Lib.Reach` — depth-first marking

The usual marking loop: a stack of nodes still to be expanded and a list of nodes already marked; a node is
marked when it is pushed, so it is pushed once. `succ` answers `none` for a node with a bad edge, and the
loop then gives up.

The contract is `explore_spec`: over `count` many nodes, `count` rounds are enough, and the loop either ends with
exactly the nodes reachable from where it started, or has found a reachable node with a bad edge.
-/

namespace Vnt.Lib

/-- Where every walk ends, none comes back. -/
theorem acyclic_of_acc {α : Type*} {r : α → α → Prop} {x : α} (h : Acc (fun y x => r x y) x) :
    ¬ Relation.TransGen r x x := by
  induction h with
  | intro x _ ih =>
      intro hc
      obtain ⟨y, hxy, hyx⟩ := Relation.TransGen.head'_iff.mp hc
      exact ih y hxy (Relation.TransGen.tail' hyx hxy)

variable {α : Type} [DecidableEq α]

/-- Mark and push `x`, unless it is marked. The pair is (stack, marked). -/
def push (s : List α × List α) (x : α) : List α × List α :=
  if x ∈ s.2 then s else (x :: s.1, x :: s.2)

/-- The marking loop, for at most `fuel` rounds. -/
def explore (succ : α → Option (List α)) : Nat → List α × List α → Option (List α)
  | 0, s => some s.2
  | _ + 1, ([], marked) => some marked
  | k + 1, (x :: stack, marked) => do
      let next ← succ x
      explore succ k (next.foldl push (stack, marked))

/-- Nodes an edge apart. -/
def Edge (succ : α → Option (List α)) (x y : α) : Prop := ∃ l, succ x = some l ∧ y ∈ l

/-! ## Pushing a list of nodes -/

theorem mem_pushed (l : List α) : ∀ (s : List α × List α) (y : α),
    y ∈ (l.foldl push s).2 ↔ y ∈ s.2 ∨ y ∈ l := by
  induction l with
  | nil => simp
  | cons x l ih =>
      intro s y
      rw [List.foldl_cons, ih, List.mem_cons]
      unfold push
      split
      · rename_i hx
        constructor
        · rintro (h | h)
          · exact .inl h
          · exact .inr (.inr h)
        · rintro (h | rfl | h)
          · exact .inl h
          · exact .inl hx
          · exact .inr h
      · simp only [List.mem_cons]
        tauto

/-- What the stack gains is freshly marked. -/
theorem mem_pushed_stack (l : List α) : ∀ (s : List α × List α) (y : α),
    y ∈ (l.foldl push s).1 ↔ y ∈ s.1 ∨ (y ∈ l ∧ y ∉ s.2) := by
  induction l with
  | nil => simp
  | cons x l ih =>
      intro s y
      rw [List.foldl_cons, ih, List.mem_cons]
      unfold push
      by_cases hx : x ∈ s.2
      · rw [if_pos hx]
        constructor
        · rintro (h | ⟨h, hn⟩)
          · exact .inl h
          · exact .inr ⟨.inr h, hn⟩
        · rintro (h | ⟨rfl | h, hn⟩)
          · exact .inl h
          · exact absurd hx hn
          · exact .inr ⟨h, hn⟩
      · rw [if_neg hx]
        simp only [List.mem_cons]
        by_cases hy : y = x
        · subst hy
          simp [hx]
        · simp [hy]

/-- Pushing keeps the marks free of repetitions, and the stack grows as much as the marks. -/
theorem pushed_nodup (l : List α) : ∀ (s : List α × List α), s.2.Nodup →
    (l.foldl push s).2.Nodup ∧
      (l.foldl push s).1.length + s.2.length = s.1.length + (l.foldl push s).2.length := by
  induction l with
  | nil => intro s hs; exact ⟨hs, rfl⟩
  | cons x l ih =>
      intro s hs
      rw [List.foldl_cons]
      by_cases hx : x ∈ s.2
      · rw [show push s x = s from if_pos hx]
        exact ih s hs
      · rw [show push s x = (x :: s.1, x :: s.2) from if_neg hx]
        obtain ⟨hn, hl⟩ := ih (x :: s.1, x :: s.2) (List.nodup_cons.mpr ⟨hx, hs⟩)
        refine ⟨hn, ?_⟩
        simp only [List.length_cons] at hl
        omega

/-! ## The loop -/

section Spec

variable {succ : α → Option (List α)} {nodes : List α}

/-- Between two rounds: marks are bounded and without repetition, and every marked node that is not on the
    stack has its successors marked. -/
structure Marking (succ : α → Option (List α)) (nodes : List α) (s : List α × List α) : Prop where
  nodup : s.2.Nodup
  bounded : s.2 ⊆ nodes
  stacked : s.1 ⊆ s.2
  done : ∀ x ∈ s.2, x ∉ s.1 → ∃ l, succ x = some l ∧ l ⊆ s.2

/-- Expanding the top of the stack keeps the invariant. -/
theorem Marking.expand {x : α} {stack marked next : List α}
    (h : Marking succ nodes (x :: stack, marked)) (hx : succ x = some next) (hb : next ⊆ nodes) :
    Marking succ nodes (next.foldl push (stack, marked)) where
  nodup := (pushed_nodup next (stack, marked) h.nodup).1
  bounded := by
    intro y hy
    rcases (mem_pushed next _ y).mp hy with h' | h'
    · exact h.bounded h'
    · exact hb h'
  stacked := by
    intro y hy
    rw [mem_pushed]
    rcases (mem_pushed_stack next _ y).mp hy with h' | ⟨h', -⟩
    · exact .inl (h.stacked (List.mem_cons_of_mem _ h'))
    · exact .inr h'
  done := by
    intro y hy hn
    rw [mem_pushed_stack] at hn
    rw [mem_pushed] at hy
    have old : y ∈ marked := by
      rcases hy with hy | hy
      · exact hy
      · by_contra hm
        exact hn (.inr ⟨hy, hm⟩)
    by_cases hyx : y = x
    · subst hyx
      exact ⟨next, hx, fun z hz => (mem_pushed next _ z).mpr (.inr hz)⟩
    · have hs : y ∉ x :: stack := by
        rintro (_ | ⟨_, hm⟩)
        · exact hyx rfl
        · exact hn (.inl hm)
      obtain ⟨l, hl, hsub⟩ := h.done y old hs
      exact ⟨l, hl, fun z hz => (mem_pushed next _ z).mpr (.inl (hsub hz))⟩

omit [DecidableEq α] in
/-- A marked set closed under edges holds everything reachable from it. -/
theorem mem_of_reachable {marked : List α} (h : ∀ x ∈ marked, ∃ l, succ x = some l ∧ l ⊆ marked) {x y : α}
    (hx : x ∈ marked) (hxy : Relation.ReflTransGen (Edge succ) x y) : y ∈ marked := by
  induction hxy with
  | refl => exact hx
  | tail _ hyz ih =>
      obtain ⟨l, hl, hsub⟩ := h _ ih
      obtain ⟨l', hl', hz⟩ := hyz
      rw [hl] at hl'
      cases hl'
      exact hsub hz

/-- Enough rounds. -/
theorem explore_marking (hb : ∀ x l, succ x = some l → l ⊆ nodes) : ∀ (k : Nat) (s : List α × List α),
    Marking succ nodes s → nodes.length - s.2.length + s.1.length ≤ k →
      (∀ marked, explore succ k s = some marked →
        s.2 ⊆ marked ∧ marked.Nodup ∧ marked ⊆ nodes ∧
        (∀ x ∈ marked, ∃ l, succ x = some l ∧ l ⊆ marked) ∧
        ∀ y ∈ marked, ∃ x ∈ s.2, Relation.ReflTransGen (Edge succ) x y) ∧
      (explore succ k s = none → ∃ x ∈ s.2, ∃ y, Relation.ReflTransGen (Edge succ) x y ∧ succ y = none) := by
  intro k
  -- An empty stack ends the loop, with every mark expanded.
  have stop : ∀ marked, Marking succ nodes ([], marked) →
      marked ⊆ marked ∧ marked.Nodup ∧ marked ⊆ nodes ∧
        (∀ x ∈ marked, ∃ l, succ x = some l ∧ l ⊆ marked) ∧
        ∀ y ∈ marked, ∃ x ∈ marked, Relation.ReflTransGen (Edge succ) x y := fun marked h =>
    ⟨fun _ hx => hx, h.nodup, h.bounded, fun x hx => h.done x hx List.not_mem_nil,
      fun y hy => ⟨y, hy, .refl⟩⟩
  induction k with
  | zero =>
      rintro ⟨stack, marked⟩ h hk
      have hs : stack = [] := by
        apply List.eq_nil_of_length_eq_zero
        simp only at hk
        omega
      subst hs
      refine ⟨?_, by intro hn; cases hn⟩
      intro marked' hm
      cases hm
      exact stop marked h
  | succ k ih =>
      rintro ⟨stack, marked⟩ h hk
      cases stack with
      | nil =>
          refine ⟨?_, by intro hn; cases hn⟩
          intro marked' hm
          cases hm
          exact stop marked h
      | cons x stack =>
          have hx : x ∈ marked := h.stacked List.mem_cons_self
          cases hsucc : succ x with
          | none =>
              simp only [explore, hsucc]
              refine ⟨?_, fun _ => ⟨x, hx, x, .refl, hsucc⟩⟩
              intro _ hm
              cases hm
          | some next =>
              simp only [explore, hsucc]
              have hnext := hb x next hsucc
              have hmark := h.expand hsucc hnext
              have hlen := (pushed_nodup next (stack, marked) h.nodup).2
              have hle : (next.foldl push (stack, marked)).2.length ≤ nodes.length :=
                List.Nodup.length_le_of_subset hmark.nodup hmark.bounded
              obtain ⟨hok, hfail⟩ := ih _ hmark (by
                simp only [List.length_cons] at hk hlen ⊢
                omega)
              -- Where a run from the pushed nodes starts, a run from the old marks starts.
              have back : ∀ z ∈ (next.foldl push (stack, marked)).2,
                  ∃ x' ∈ marked, Relation.ReflTransGen (Edge succ) x' z := by
                intro z hz
                rcases (mem_pushed next _ z).mp hz with hz | hz
                · exact ⟨z, hz, .refl⟩
                · exact ⟨x, hx, .single ⟨next, hsucc, hz⟩⟩
              constructor
              · intro marked' hm
                obtain ⟨hsub, hn, hbound, hclosed, hback⟩ := hok marked' hm
                refine ⟨fun z hz => hsub ((mem_pushed next _ z).mpr (.inl hz)), hn, hbound, hclosed, ?_⟩
                intro y hy
                obtain ⟨z, hz, hzy⟩ := hback y hy
                obtain ⟨x', hx', hxz⟩ := back z hz
                exact ⟨x', hx', hxz.trans hzy⟩
              · intro hm
                obtain ⟨z, hz, y, hzy, hy⟩ := hfail hm
                obtain ⟨x', hx', hxz⟩ := back z hz
                exact ⟨x', hx', y, hxz.trans hzy, hy⟩

/-- **The contract of the loop.** -/
theorem explore_spec (hb : ∀ x l, succ x = some l → l ⊆ nodes) {roots : List α} (hr : roots ⊆ nodes) :
    (∀ marked, explore succ nodes.length (roots.foldl push ([], [])) = some marked →
      marked.Nodup ∧ marked ⊆ nodes ∧ (∀ x ∈ marked, ∃ l, succ x = some l ∧ l ⊆ marked) ∧
      ∀ y, y ∈ marked ↔ ∃ x ∈ roots, Relation.ReflTransGen (Edge succ) x y) ∧
    (explore succ nodes.length (roots.foldl push ([], [])) = none →
      ∃ x ∈ roots, ∃ y, Relation.ReflTransGen (Edge succ) x y ∧ succ y = none) := by
  have hmem : ∀ y, y ∈ (roots.foldl push ([], [])).2 ↔ y ∈ roots := by
    intro y
    rw [mem_pushed]
    simp
  have hn := pushed_nodup roots ([], []) List.nodup_nil
  have start : Marking succ nodes (roots.foldl push ([], [])) := by
    refine ⟨hn.1, fun y hy => hr ((hmem y).mp hy), ?_, ?_⟩
    · intro y hy
      rw [mem_pushed_stack] at hy
      rw [hmem]
      simpa using hy
    · intro y hy hns
      rw [hmem] at hy
      rw [mem_pushed_stack] at hns
      exact absurd (.inr ⟨hy, List.not_mem_nil⟩) hns
  obtain ⟨hok, hfail⟩ := explore_marking hb nodes.length _ start (by
    have hle := List.Nodup.length_le_of_subset start.nodup start.bounded
    have := hn.2
    simp only [List.length_nil] at this
    omega)
  constructor
  · intro marked hm
    obtain ⟨hsub, hnd, hbound, hclosed, hback⟩ := hok marked hm
    refine ⟨hnd, hbound, hclosed, fun y => ⟨?_, ?_⟩⟩
    · intro hy
      obtain ⟨x, hx, hxy⟩ := hback y hy
      exact ⟨x, (hmem x).mp hx, hxy⟩
    · rintro ⟨x, hx, hxy⟩
      exact mem_of_reachable hclosed (hsub ((hmem x).mpr hx)) hxy
  · intro hm
    obtain ⟨x, hx, y, hxy, hy⟩ := hfail hm
    exact ⟨x, (hmem x).mp hx, y, hxy, hy⟩

end Spec

end Vnt.Lib
