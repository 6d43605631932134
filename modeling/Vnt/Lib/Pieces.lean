import Mathlib.Data.List.Infix

/-!
# `Lib.Pieces` — cutting a list at the occurrences of another one

Where a list occurs in another, and the pieces between its occurrences when they are taken from the left and do not
overlap. Joined with what they were cut at the pieces are the list again, and none of them contains it.
-/

namespace Vnt.Lib

variable {α : Type} [DecidableEq α] {n v w : List α} {p : Nat}

/-- `n` occurs in `v` at `p`. -/
def OccursAt (n v : List α) (p : Nat) : Prop := n <+: v.drop p

instance (n v : List α) (p : Nat) : Decidable (OccursAt n v p) := inferInstanceAs (Decidable (_ <+: _))

/-- Put a list in front of the first piece. -/
def glue (w : List α) : List (List α) → List (List α)
  | [] => [w]
  | p :: ps => (w ++ p) :: ps

/-- The pieces of `v` between the occurrences of `n`. -/
def pieces (n v : List α) : List (List α) :=
  if _h : n ≠ [] ∧ n <+: v then [] :: pieces n (v.drop n.length)
  else
    match v with
    | [] => [[]]
    | c :: rest => glue [c] (pieces n rest)
termination_by v.length
decreasing_by
  · have hpos := List.length_pos_iff.mpr _h.1
    have hle := _h.2.length_le
    rw [List.length_drop]
    omega
  · exact Nat.lt_succ_self _

/-! ## Occurrences -/

omit [DecidableEq α] in
theorem OccursAt.le (hn : n ≠ []) (h : OccursAt n v p) : p + n.length ≤ v.length := by
  have hpos := List.length_pos_iff.mpr hn
  have hle := List.IsPrefix.length_le h
  rw [List.length_drop] at hle
  omega

omit [DecidableEq α] in
theorem infix_iff_occurs : n <:+: v ↔ ∃ p, OccursAt n v p := by
  constructor
  · rintro ⟨front, back, rfl⟩
    refine ⟨front.length, back, ?_⟩
    rw [List.append_assoc, List.drop_left]
  · rintro ⟨p, hp⟩
    exact hp.isInfix.trans (List.drop_suffix p v).isInfix

/-! ## Pieces -/

theorem pieces_match (hn : n ≠ []) (h : n <+: v) : pieces n v = [] :: pieces n (v.drop n.length) := by
  rw [pieces, dif_pos ⟨hn, h⟩]

theorem pieces_cons {c : α} (h : ¬ n <+: c :: v) : pieces n (c :: v) = glue [c] (pieces n v) := by
  rw [pieces, dif_neg fun hboth => h hboth.2]

theorem pieces_nil (hn : n ≠ []) : pieces n ([] : List α) = [[]] := by
  rw [pieces, dif_neg fun hboth => hn (List.prefix_nil.mp hboth.2)]

omit [DecidableEq α] in
theorem glue_ne_nil (w : List α) (ps : List (List α)) : glue w ps ≠ [] := by
  cases ps <;> exact List.cons_ne_nil _ _

omit [DecidableEq α] in
theorem glue_glue (w w' : List α) (ps : List (List α)) : glue w (glue w' ps) = glue (w ++ w') ps := by
  cases ps with
  | nil => rfl
  | cons p ps => exact congrArg (· :: ps) (List.append_assoc w w' p).symm

omit [DecidableEq α] in
theorem length_glue {ps : List (List α)} (h : ps ≠ []) : (glue w ps).length = ps.length := by
  cases ps with
  | nil => exact absurd rfl h
  | cons p ps => rfl

omit [DecidableEq α] in
theorem intercalate_glue {ps : List (List α)} (r : List α) (h : ps ≠ []) :
    r.intercalate (glue w ps) = w ++ r.intercalate ps := by
  cases ps with
  | nil => exact absurd rfl h
  | cons p ps =>
      cases ps with
      | nil =>
          show r.intercalate [w ++ p] = w ++ r.intercalate [p]
          rw [List.intercalate_singleton, List.intercalate_singleton]
      | cons q ps =>
          show r.intercalate ((w ++ p) :: q :: ps) = _
          rw [List.intercalate_cons_cons, List.intercalate_cons_cons]
          simp only [List.append_assoc]

/-! ## Lists joined by a separator -/

section Joined

omit [DecidableEq α]

variable {x c : α} {r l : List α} {rs : List (List α)}

theorem intercalate_eq_nil_iff : [x].intercalate (r :: rs) = [] ↔ r = [] ∧ rs = [] := by
  cases rs with
  | nil =>
      rw [List.intercalate_singleton]
      exact ⟨fun h => ⟨h, rfl⟩, fun h => h.1⟩
  | cons q qs =>
      rw [List.intercalate_cons_cons, List.append_assoc]
      refine iff_of_false (fun h => ?_) (fun h => List.cons_ne_nil q qs h.2)
      exact List.cons_ne_nil _ _ (List.append_eq_nil_iff.mp h).2

/-- The first character is the first of the first list, or the separator behind an empty one. -/
theorem intercalate_eq_cons_iff : [x].intercalate (r :: rs) = c :: l ↔
    (∃ r', r = c :: r' ∧ l = [x].intercalate (r' :: rs)) ∨
      r = [] ∧ c = x ∧ ∃ q qs, rs = q :: qs ∧ l = [x].intercalate (q :: qs) := by
  cases r with
  | nil =>
      cases rs with
      | nil => simp [List.intercalate_singleton]
      | cons q qs =>
          rw [List.intercalate_cons_cons, List.nil_append]
          constructor
          · intro h
            obtain ⟨hx, hl⟩ := List.cons.inj h
            exact Or.inr ⟨rfl, hx.symm, q, qs, rfl, hl.symm⟩
          · rintro (⟨r', hr, -⟩ | ⟨-, rfl, q', qs', hq, rfl⟩)
            · exact absurd hr.symm (List.cons_ne_nil c r')
            · obtain ⟨rfl, rfl⟩ := List.cons.inj hq
              rfl
  | cons b r =>
      have hsplit : [x].intercalate ((b :: r) :: rs) = b :: [x].intercalate (r :: rs) :=
        @intercalate_glue α [b] (r :: rs) [x] (List.cons_ne_nil r rs)
      rw [hsplit]
      constructor
      · intro h
        obtain ⟨rfl, rfl⟩ := List.cons.inj h
        exact Or.inl ⟨r, rfl, rfl⟩
      · rintro (⟨r', hr, rfl⟩ | ⟨hr, -⟩)
        · obtain ⟨rfl, rfl⟩ := List.cons.inj hr
          rfl
        · exact absurd hr (List.cons_ne_nil b r)

end Joined

theorem pieces_ne_nil (hn : n ≠ []) : pieces n v ≠ [] := by
  by_cases h : n <+: v
  · rw [pieces_match hn h]
    exact List.cons_ne_nil _ _
  · cases v with
    | nil =>
        rw [pieces_nil hn]
        exact List.cons_ne_nil _ _
    | cons c v =>
        rw [pieces_cons h]
        exact glue_ne_nil _ _

/-- The cases of `pieces`. -/
theorem pieces_induction {P : List α → Prop} (hn : n ≠ []) (hnil : P [])
    (hmatch : ∀ v, n <+: v → P (v.drop n.length) → P v) (hcons : ∀ c v, ¬ n <+: c :: v → P v → P (c :: v)) (v : List α) :
    P v := by
  obtain ⟨size, hsize⟩ : ∃ size, v.length = size := ⟨_, rfl⟩
  induction size using Nat.strong_induction_on generalizing v with
  | _ size ih =>
      by_cases h : n <+: v
      · have hpos := List.length_pos_iff.mpr hn
        have hle := h.length_le
        have hdrop : (v.drop n.length).length = v.length - n.length := List.length_drop
        exact hmatch v h (ih _ (by omega) _ hdrop)
      · cases v with
        | nil => exact hnil
        | cons c v =>
            rw [List.length_cons] at hsize
            exact hcons c v h (ih _ (by omega) v rfl)

/-- The pieces of `n` and what comes after it. -/
theorem intercalate_pieces (hn : n ≠ []) (v : List α) : n.intercalate (pieces n v) = v := by
  induction v using pieces_induction hn with
  | hnil =>
      rw [pieces_nil hn]
      exact List.intercalate_singleton
  | hmatch v h ih =>
      rw [pieces_match hn h, List.intercalate_cons_of_ne_nil (pieces_ne_nil hn), ih, List.nil_append]
      obtain ⟨rest, rfl⟩ := h
      rw [List.drop_left]
  | hcons c v h ih =>
      rw [pieces_cons h, intercalate_glue n (pieces_ne_nil hn), ih]
      rfl

/-- No piece contains `n`. -/
theorem not_infix_pieces (hn : n ≠ []) (v : List α) : ∀ p ∈ pieces n v, ¬ n <:+: p := by
  have hnil : ¬ n <:+: [] := fun h => hn (List.infix_nil.mp h)
  induction v using pieces_induction hn with
  | hnil =>
      rw [pieces_nil hn]
      exact fun p hp => List.mem_singleton.mp hp ▸ hnil
  | hmatch v h ih =>
      rw [pieces_match hn h]
      intro p hp
      rcases List.mem_cons.mp hp with rfl | hp
      · exact hnil
      · exact ih p hp
  | hcons c v h ih =>
      rw [pieces_cons h]
      have hsame := intercalate_pieces hn v
      cases hpieces : pieces n v with
      | nil => exact absurd hpieces (pieces_ne_nil hn)
      | cons q ps =>
          rw [hpieces] at ih hsame
          intro p hp
          rcases List.mem_cons.mp hp with rfl | hp
          · -- An occurrence at the first element would be one in the whole list.
            intro hinfix
            rcases List.infix_cons_iff.mp hinfix with hprefix | hinfix
            · have hq : q <+: v := by
                rw [← hsame]
                cases ps with
                | nil =>
                    rw [List.intercalate_singleton]
                | cons q' ps =>
                    rw [List.intercalate_cons_cons, List.append_assoc]
                    exact List.prefix_append _ _
              exact h (List.IsPrefix.trans hprefix ((List.prefix_cons_inj c).mpr hq))
            · exact ih q List.mem_cons_self hinfix
          · exact ih p (List.mem_cons_of_mem q hp)

theorem pieces_of_short (hn : n ≠ []) (h : v.length < n.length) : pieces n v = [v] := by
  induction v with
  | nil => exact pieces_nil hn
  | cons c v ih =>
      have hnot : ¬ n <+: c :: v := fun hprefix => absurd hprefix.length_le (Nat.not_le_of_lt h)
      rw [pieces_cons hnot, ih (Nat.lt_of_succ_lt h)]
      rfl

/-- There is more than one piece if and only if `n` occurs. -/
theorem one_lt_pieces_iff (hn : n ≠ []) : 1 < (pieces n v).length ↔ n <:+: v := by
  constructor
  · intro hlen
    obtain ⟨p, q, ps, hpieces⟩ : ∃ p q ps, pieces n v = p :: q :: ps := by
      cases hpieces : pieces n v with
      | nil =>
          rw [hpieces] at hlen
          exact absurd hlen (Nat.not_lt_zero _)
      | cons p ps =>
          cases ps with
          | nil =>
              rw [hpieces] at hlen
              exact absurd hlen (Nat.lt_irrefl _)
          | cons q ps => exact ⟨p, q, ps, rfl⟩
    have hsame := intercalate_pieces hn v
    rw [hpieces, List.intercalate_cons_cons] at hsame
    exact ⟨p, _, hsame⟩
  · intro hinfix
    by_contra hlen
    obtain ⟨p, hpieces⟩ : ∃ p, pieces n v = [p] := by
      cases hpieces : pieces n v with
      | nil => exact absurd hpieces (pieces_ne_nil hn)
      | cons p ps =>
          cases ps with
          | nil => exact ⟨p, rfl⟩
          | cons q ps =>
              rw [hpieces] at hlen
              exact absurd (Nat.succ_lt_succ (Nat.zero_lt_succ _)) hlen
    have hsame := intercalate_pieces hn v
    rw [hpieces, List.intercalate_singleton] at hsame
    subst hsame
    exact not_infix_pieces hn p p (hpieces ▸ List.mem_singleton_self p) hinfix

end Vnt.Lib
