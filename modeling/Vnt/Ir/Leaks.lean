import Vnt.Ir.Scopes

/-!
# `Ir.Leaks` — when leaky scoping is lexical scoping

What an unsafe block declares stays on the resolver's stack behind the block. `leakWalk` follows which names are
hidden that way by a declaration that is no longer in scope, and fails at the first occurrence of such a name.
Up to there both walks find the same declarations, under a one-to-one renaming of their numbers; at that
occurrence they do not, and since a declaration is an occurrence of its own, the numbers no longer correspond.
-/

namespace Vnt

/-! ## Hidden names -/

/-- The names hidden behind a chain, `leaked` being those hidden in front of it; `none` if a hidden name occurs. -/
def leakWalk : Hir → List String → Option (List String)
  | .nil, leaked => some leaked
  | .leaf _ (.variable x) n, leaked => if x ∈ leaked then none else leakWalk n leaked
  | .leaf _ _ n, leaked => leakWalk n leaked
  | .one _ (.variableDecl x _) a n, leaked => do
      let leaked ← leakWalk a leaked
      leakWalk n (leaked.filter (· ≠ x))
  | .one _ (.reassign x _) a n, leaked => do
      let leaked ← leakWalk a leaked
      if x ∈ leaked then none else leakWalk n leaked
  | .one _ (.function _ _) _ n, leaked => leakWalk n leaked
  | .one _ .program a n, leaked => do
      let inner ← leakWalk a leaked
      leakWalk n (inner ++ a.declared)
  | .one _ _ a n, leaked => do
      let leaked ← leakWalk a leaked
      leakWalk n leaked
  | .two _ .whileNode c b n, leaked => do
      let leaked ← leakWalk c leaked
      let _ ← leakWalk b leaked
      leakWalk n leaked
  | .two _ _ a b n, leaked => do
      let leaked ← leakWalk a leaked
      let leaked ← leakWalk b leaked
      leakWalk n leaked
  | .ifNode _ c t e n, leaked => do
      let leaked ← leakWalk c leaked
      let _ ← leakWalk t leaked
      let _ ← leakWalk e leaked
      leakWalk n leaked

/-- The same over the children of the root. A declaration there does not come to lie over a hidden name. -/
def leakTop : Hir → List String → Option (List String)
  | .nil, leaked => some leaked
  | .one _ (.function _ names) a n, leaked => do
      let _ ← leakWalk a (leaked.filter (· ∉ names))
      leakTop n leaked
  | .one _ (.variableDecl _ _) a n, leaked => do
      let leaked ← leakWalk a leaked
      leakTop n leaked
  | .leaf i op n, leaked => do
      let leaked ← leakWalk (.leaf i op .nil) leaked
      leakTop n leaked
  | .one i op a n, leaked => do
      let leaked ← leakWalk (.one i op a .nil) leaked
      leakTop n leaked
  | .two i op a b n, leaked => do
      let leaked ← leakWalk (.two i op a b .nil) leaked
      leakTop n leaked
  | .ifNode i c t e n, leaked => do
      let leaked ← leakWalk (.ifNode i c t e .nil) leaked
      leakTop n leaked

/-! ## Both walks side by side -/

/-- An occurrence with its lexical and its leaky number. -/
abbrev NotePair := (String × Nat) × String × Nat

/-- Both walks at one point: the two scopes, the renaming of numbers, the hidden names and the occurrences so
    far. -/
structure Tracking where
  lexical : Scope
  leaky : Scope
  id : Nat → Nat
  leaked : List String
  past : List NotePair

/-- The walks agree on every name that is not hidden. Numbers below `floor` belong to the root. -/
structure Tracking.Ok (floor : Nat) (c : Tracking) : Prop where
  bound : ∀ p ∈ c.lexical.env, p.2 < c.lexical.next
  inj : ∀ k < c.lexical.next, ∀ k' < c.lexical.next, c.id k = c.id k' → k = k'
  id_lt : ∀ k < c.lexical.next, c.id k < c.leaky.next
  floor_le : floor ≤ c.leaky.next
  right : ∀ x k, c.lexical.env.lookup x = some k → x ∉ c.leaked → c.leaky.env.lookup x = some (c.id k)
  wrong : ∀ x ∈ c.leaked, ∃ j, c.leaky.env.lookup x = some j ∧ floor ≤ j ∧ j < c.leaky.next ∧
    ∀ k, (x, k) ∈ c.lexical.env → j ≠ c.id k
  logged : ∀ p ∈ c.lexical.env, (p, p.1, c.id p.2) ∈ c.past

/-- From `c` to `c'` both walks have noted occurrences of the same declarations, `l` and `l'`. -/
structure Tracking.Notes (c c' : Tracking) (l l' : List (String × Nat)) : Prop where
  past : c'.past = c.past ++ l.zip l'
  same : l' = l.map fun p => (p.1, c'.id p.2)
  bounded : ∀ p ∈ l, p.2 < c'.lexical.next
  lexical_le : c.lexical.next ≤ c'.lexical.next
  agree : ∀ k < c.lexical.next, c'.id k = c.id k

/-- They have also declared `names`, in scopes that only grew. -/
structure Tracking.Moves (c c' : Tracking) (names : List String) (l l' : List (String × Nat)) : Prop
    extends c.Notes c' l l' where
  grows : c.lexical.Grows c'.lexical names
  fresh : ∀ k, c.lexical.next ≤ k → k < c'.lexical.next → c.leaky.next ≤ c'.id k
  next_le : c.leaky.next ≤ c'.leaky.next
  env : ∃ new, c'.leaky.env = new ++ c.leaky.env ∧ ∀ p ∈ new, p.1 ∈ c'.leaked ∨ p.1 ∈ names
  shrinks : ∀ x ∈ c.leaked, x ∈ c'.leaked ∨ x ∈ names

namespace Tracking

variable {floor : Nat} {c c₁ c₂ : Tracking} {xs ys : List String} {l l' m m' : List (String × Nat)}

theorem Notes.refl (c : Tracking) : c.Notes c [] [] where
  past := by simp
  same := rfl
  bounded := by simp
  lexical_le := Nat.le_refl _
  agree := fun _ _ => rfl

theorem Notes.length (h : c.Notes c₁ l l') : l.length = l'.length := by rw [h.same, List.length_map]

theorem Notes.trans (h : c.Notes c₁ l l') (h' : c₁.Notes c₂ m m') : c.Notes c₂ (l ++ m) (l' ++ m') where
  past := by rw [h'.past, h.past, List.append_assoc, List.zip_append h.length]
  same := by
    rw [List.map_append, ← h'.same, h.same]
    congr 1
    refine List.map_congr_left fun p hp => ?_
    rw [h'.agree p.2 (h.bounded p hp)]
  bounded := by
    intro p hp
    rcases List.mem_append.mp hp with hp | hp
    · exact Nat.lt_of_lt_of_le (h.bounded p hp) h'.lexical_le
    · exact h'.bounded p hp
  lexical_le := Nat.le_trans h.lexical_le h'.lexical_le
  agree := fun k hk => by rw [h'.agree k (Nat.lt_of_lt_of_le hk h.lexical_le), h.agree k hk]

theorem Moves.refl (c : Tracking) : c.Moves c [] [] [] where
  toNotes := .refl c
  grows := .refl _
  fresh := fun k h h' => by omega
  next_le := Nat.le_refl _
  env := ⟨[], rfl, by simp⟩
  shrinks := fun _ hx => .inl hx

theorem Moves.trans (h : c.Moves c₁ xs l l') (h' : c₁.Moves c₂ ys m m') :
    c.Moves c₂ (xs ++ ys) (l ++ m) (l' ++ m') where
  toNotes := h.toNotes.trans h'.toNotes
  grows := h.grows.trans h'.grows
  fresh := by
    intro k hk hk'
    by_cases hlt : k < c₁.lexical.next
    · rw [h'.agree k hlt]
      exact h.fresh k hk hlt
    · exact Nat.le_trans h.next_le (h'.fresh k (by omega) hk')
  next_le := Nat.le_trans h.next_le h'.next_le
  env := by
    obtain ⟨new, he, hnew⟩ := h.env
    obtain ⟨new', he', hnew'⟩ := h'.env
    refine ⟨new' ++ new, by rw [he', he, List.append_assoc], fun p hp => ?_⟩
    simp only [List.mem_append] at hp ⊢
    rcases hp with hp | hp
    · exact (hnew' p hp).imp_right .inr
    · rcases hnew p hp with hp | hp
      · exact (h'.shrinks _ hp).imp_right .inr
      · exact .inr (.inl hp)
  shrinks := by
    intro x hx
    simp only [List.mem_append]
    rcases h.shrinks x hx with hx | hx
    · exact (h'.shrinks x hx).imp_right .inr
    · exact .inr (.inl hx)

/-! ## Single steps -/

/-- An occurrence is noted. -/
def note (c : Tracking) (x : String) (k : Nat) : Tracking := { c with past := c.past ++ [((x, k), x, c.id k)] }

theorem Ok.note (h : c.Ok floor) (x : String) (k : Nat) : (c.note x k).Ok floor :=
  { h with logged := fun p hp => List.mem_append_left _ (h.logged p hp) }

theorem Ok.lookup_lt (h : c.Ok floor) {x : String} {k : Nat} (hk : c.lexical.env.lookup x = some k) :
    (x, k) ∈ c.lexical.env ∧ k < c.lexical.next := by
  obtain ⟨before, after, henv, -⟩ := List.lookup_eq_some_iff.mp hk
  have hmem : (x, k) ∈ c.lexical.env := by
    rw [henv]
    exact List.mem_append_right _ List.mem_cons_self
  exact ⟨hmem, h.bound _ hmem⟩

theorem moves_note {x : String} {k : Nat} (hk : k < c.lexical.next) :
    c.Moves (c.note x k) [] [(x, k)] [(x, c.id k)] where
  past := rfl
  same := rfl
  bounded := by simpa [note] using hk
  lexical_le := Nat.le_refl _
  grows := .refl _
  agree := fun _ _ => rfl
  fresh := fun k h h' => by
    have : k < c.lexical.next := h'
    omega
  next_le := Nat.le_refl _
  env := ⟨[], rfl, by simp⟩
  shrinks := fun _ hx => .inl hx

/-- A declaration that both walks push. -/
def declare (c : Tracking) (x : String) : Tracking where
  lexical := c.lexical.declare x
  leaky := c.leaky.declare x
  id := fun k => if k = c.lexical.next then c.leaky.next else c.id k
  leaked := c.leaked.filter (· ≠ x)
  past := c.past ++ [((x, c.lexical.next), x, c.leaky.next)]

theorem declare_id_of_lt {k : Nat} (x : String) (hk : k < c.lexical.next) : (c.declare x).id k = c.id k :=
  if_neg (by omega)

theorem Ok.declare (h : c.Ok floor) (x : String) : (c.declare x).Ok floor where
  bound := by
    intro p hp
    rcases List.mem_cons.mp hp with rfl | hp
    · exact Nat.lt_succ_self _
    · exact Nat.lt_succ_of_lt (h.bound p hp)
  inj := by
    intro k hk k' hk' heq
    have hk₁ : k < c.lexical.next + 1 := hk
    have hk₁' : k' < c.lexical.next + 1 := hk'
    simp only [Tracking.declare] at heq
    split at heq <;> split at heq
    · omega
    · have := h.id_lt k' (by omega); omega
    · have := h.id_lt k (by omega); omega
    · exact h.inj k (by omega) k' (by omega) heq
  id_lt := by
    intro k hk
    have hk₁ : k < c.lexical.next + 1 := hk
    simp only [Tracking.declare, Scope.declare]
    split
    · omega
    · have := h.id_lt k (by omega); omega
  floor_le := Nat.le_succ_of_le h.floor_le
  right := by
    intro y k hk hy
    by_cases hyx : y = x
    · subst hyx
      simp only [Tracking.declare, Scope.declare, List.lookup_cons_self, Option.some.injEq] at hk ⊢
      simp [← hk]
    · have hyx' : (y == x) = false := by simpa using hyx
      simp only [Tracking.declare, Scope.declare, List.lookup_cons, hyx'] at hk ⊢
      have hlt := (h.lookup_lt hk).2
      rw [if_neg (by omega)]
      refine h.right y k hk fun hl => hy ?_
      simpa [Tracking.declare, hyx] using hl
  wrong := by
    intro y hy
    simp only [Tracking.declare, ne_eq, decide_not, List.mem_filter, Bool.not_eq_true', decide_eq_false_iff_not]
      at hy
    obtain ⟨j, hj, hfloor, hlt, hne⟩ := h.wrong y hy.1
    have hyx : (y == x) = false := by simpa using hy.2
    refine ⟨j, by simpa [Tracking.declare, Scope.declare, List.lookup_cons, hyx] using hj, hfloor,
      Nat.lt_succ_of_lt hlt, fun k hk => ?_⟩
    rcases List.mem_cons.mp hk with heq | hk
    · cases heq
      exact absurd rfl hy.2
    · rw [declare_id_of_lt x (h.bound _ hk)]
      exact hne k hk
  logged := by
    intro p hp
    rcases List.mem_cons.mp hp with rfl | hp
    · refine List.mem_append_right _ ?_
      simp [Tracking.declare]
    · refine List.mem_append_left _ ?_
      rw [declare_id_of_lt x (h.bound p hp)]
      exact h.logged p hp

theorem moves_declare (c : Tracking) (x : String) :
    c.Moves (c.declare x) [x] [(x, c.lexical.next)] [(x, c.leaky.next)] where
  past := rfl
  same := by simp [declare]
  bounded := by simp [declare, Scope.declare]
  lexical_le := Nat.le_succ _
  grows := .declare _ x
  agree := fun k hk => declare_id_of_lt x hk
  fresh := by
    intro k hk hk'
    have : k < c.lexical.next + 1 := hk'
    simp [declare, show k = c.lexical.next by omega]
  next_le := Nat.le_succ _
  env := ⟨[(x, c.leaky.next)], rfl, by simp⟩
  shrinks := by
    intro y hy
    by_cases hyx : y = x
    · exact .inr (by simp [hyx])
    · exact .inl (by simp [declare, hy, hyx])

/-! ## Blocks -/

/-- The end of a block that both walks restore. -/
def leaveBlock (c c' : Tracking) : Tracking where
  lexical := c.lexical.leave c'.lexical
  leaky := c.leaky.leave c'.leaky
  id := c'.id
  leaked := c.leaked
  past := c'.past

theorem Ok.leaveBlock (h : c.Ok floor) (h' : c₁.Ok floor) (hm : c.Moves c₁ xs l l') :
    (c.leaveBlock c₁).Ok floor where
  bound := fun p hp => Nat.lt_of_lt_of_le (h.bound p hp) hm.lexical_le
  inj := h'.inj
  id_lt := h'.id_lt
  floor_le := h'.floor_le
  right := by
    intro x k hk hx
    have : c₁.id k = c.id k := hm.agree k (h.lookup_lt hk).2
    show c.leaky.env.lookup x = some (c₁.id k)
    rw [this]
    exact h.right x k hk hx
  wrong := by
    intro x hx
    obtain ⟨j, hj, hfloor, hlt, hne⟩ := h.wrong x hx
    refine ⟨j, hj, hfloor, Nat.lt_of_lt_of_le hlt hm.next_le, fun k hk => ?_⟩
    show j ≠ c₁.id k
    rw [hm.agree k (h.bound _ hk)]
    exact hne k hk
  logged := by
    intro p hp
    show (p, p.1, c₁.id p.2) ∈ c₁.past
    rw [hm.agree p.2 (h.bound p hp), hm.past]
    exact List.mem_append_left _ (h.logged p hp)

theorem Moves.leaveBlock (hm : c.Moves c₁ xs l l') : c.Moves (c.leaveBlock c₁) [] l l' where
  past := hm.past
  same := hm.same
  bounded := hm.bounded
  lexical_le := hm.lexical_le
  grows := .leave hm.lexical_le
  agree := hm.agree
  fresh := hm.fresh
  next_le := hm.next_le
  env := ⟨[], rfl, by simp⟩
  shrinks := fun _ hx => .inl hx

/-- The end of an unsafe block: only the lexical walk restores its scope. -/
def leak (c c' : Tracking) (names : List String) : Tracking where
  lexical := c.lexical.leave c'.lexical
  leaky := c'.leaky
  id := c'.id
  leaked := c'.leaked ++ names
  past := c'.past

theorem Ok.leak (h : c.Ok floor) (h' : c₁.Ok floor) (hm : c.Moves c₁ xs l l') : (c.leak c₁ xs).Ok floor := by
  obtain ⟨new, henv, hnew, hnames⟩ := hm.grows.env
  have hsub : ∀ p ∈ c.lexical.env, p ∈ c₁.lexical.env := fun p hp => henv ▸ List.mem_append_right _ hp
  refine ⟨fun p hp => Nat.lt_of_lt_of_le (h.bound p hp) hm.lexical_le, h'.inj, h'.id_lt, h'.floor_le, ?_, ?_, ?_⟩
  · -- A name the block neither declares nor hides means inside what it means outside.
    intro x k hk hx
    have hx' : x ∉ c₁.leaked ∧ x ∉ xs := by simpa [Tracking.leak] using hx
    refine h'.right x k ?_ hx'.1
    have hfree : new.lookup x = none := by
      rw [List.lookup_eq_none_iff]
      intro p hp
      have : p.1 ≠ x := by
        rintro rfl
        exact hx'.2 ((hnames _).mp (List.mem_map_of_mem hp))
      simpa using fun h => this h.symm
    rw [henv, List.lookup_append, hfree]
    exact hk
  · intro x hx
    rcases Classical.em (x ∈ c₁.leaked) with hl | hl
    · obtain ⟨j, hj, hfloor, hlt, hne⟩ := h'.wrong x hl
      exact ⟨j, hj, hfloor, hlt, fun k hk => hne k (hsub _ hk)⟩
    · -- The block has declared it, so the stack still finds the block's own.
      have hxs : x ∈ xs := by
        rcases List.mem_append.mp hx with hx | hx
        · exact absurd hx hl
        · exact hx
      obtain ⟨k₁, hk₁⟩ : ∃ k₁, new.lookup x = some k₁ := by
        obtain ⟨p, hp, rfl⟩ := List.mem_map.mp ((hnames x).mpr hxs)
        exact Option.isSome_iff_exists.mp (List.lookup_isSome_iff.mpr ⟨p, hp, by simp⟩)
      obtain ⟨before, after, hsplit, -⟩ := List.lookup_eq_some_iff.mp hk₁
      have hin : (x, k₁) ∈ new := by
        rw [hsplit]
        exact List.mem_append_right _ List.mem_cons_self
      have hlook : c₁.lexical.env.lookup x = some k₁ := by rw [henv, List.lookup_append, hk₁]; rfl
      have hrange : c.lexical.next ≤ k₁ ∧ k₁ < c₁.lexical.next := hnew _ hin
      refine ⟨c₁.id k₁, h'.right x k₁ hlook hl, ?_, h'.id_lt k₁ hrange.2, fun k hk heq => ?_⟩
      · exact Nat.le_trans h.floor_le (hm.fresh k₁ hrange.1 hrange.2)
      · have hk' := h.bound _ hk
        have := h'.inj k₁ hrange.2 k (Nat.lt_of_lt_of_le hk' hm.lexical_le) heq
        simp only at hk'
        omega
  · intro p hp
    show (p, p.1, c₁.id p.2) ∈ c₁.past
    rw [hm.agree p.2 (h.bound p hp), hm.past]
    exact List.mem_append_left _ (h.logged p hp)

theorem Moves.leak (hm : c.Moves c₁ xs l l') : c.Moves (c.leak c₁ xs) [] l l' where
  past := hm.past
  same := hm.same
  bounded := hm.bounded
  lexical_le := hm.lexical_le
  grows := .leave hm.lexical_le
  agree := hm.agree
  fresh := hm.fresh
  next_le := hm.next_le
  env := by
    obtain ⟨new, he, hnew⟩ := hm.env
    exact ⟨new, he, fun p hp => .inl (List.mem_append.mpr (hnew p hp))⟩
  shrinks := fun x hx => .inl (List.mem_append.mpr (hm.shrinks x hx))

end Tracking

/-! ## Whole chains -/

/-- A chain without occurrences does nothing. -/
theorem walk_silent (h : Hir) (ho : h.occurrences = []) : ∀ {s s' : Scope} {l : List (String × Nat)},
    walk false h s = some (l, s') → l = [] ∧ s' = s := by
  induction h with
  | nil => intro s s' l hw; cases hw; exact ⟨rfl, rfl⟩
  | leaf i op n hn =>
      cases op with
      | «variable» x => simp at ho
      | _ => exact fun hw => hn ho hw
  | one i op a n ha hn =>
      intro s s' l hw
      cases op with
      | variableDecl x t => simp at ho
      | reassign x t => simp at ho
      | function f names =>
          simp only [Hir.occurrences, List.append_eq_nil_iff] at ho
          obtain ⟨rfl, hoa, hon⟩ := ho
          simp only [walk, bind, Option.bind_eq_some_iff, Option.some.injEq, Prod.mk.injEq, Bool.false_eq_true,
            if_false] at hw
          obtain ⟨⟨la, s₁⟩, hwa, ⟨ln, s₂⟩, hwn, rfl, rfl⟩ := hw
          obtain ⟨rfl, rfl⟩ := ha hoa hwa
          obtain ⟨rfl, rfl⟩ := hn hon hwn
          exact ⟨rfl, rfl⟩
      | _ =>
          simp only [Hir.occurrences, List.append_eq_nil_iff] at ho
          simp only [walk, bind, Option.bind_eq_some_iff, Option.some.injEq, Prod.mk.injEq, Bool.false_eq_true,
            if_false] at hw
          obtain ⟨⟨la, s₁⟩, hwa, ⟨ln, s₂⟩, hwn, rfl, rfl⟩ := hw
          obtain ⟨rfl, rfl⟩ := ha ho.1 hwa
          obtain ⟨rfl, rfl⟩ := hn ho.2 hwn
          exact ⟨rfl, rfl⟩
  | two i op a b n ha hb hn =>
      intro s s' l hw
      simp only [Hir.occurrences, List.append_eq_nil_iff] at ho
      cases op <;>
        (simp only [walk, bind, Option.bind_eq_some_iff, Option.some.injEq, Prod.mk.injEq] at hw
         obtain ⟨⟨la, s₁⟩, hwa, ⟨lb, s₃⟩, hwb, ⟨ln, s₂⟩, hwn, rfl, rfl⟩ := hw
         obtain ⟨rfl, rfl⟩ := ha ho.1 hwa
         obtain ⟨rfl, rfl⟩ := hb ho.2.1 hwb
         obtain ⟨rfl, rfl⟩ := hn ho.2.2 hwn
         exact ⟨rfl, rfl⟩)
  | ifNode i c t e n hc ht he hn =>
      intro s s' l hw
      simp only [Hir.occurrences, List.append_eq_nil_iff] at ho
      simp only [walk, bind, Option.bind_eq_some_iff, Option.some.injEq, Prod.mk.injEq] at hw
      obtain ⟨⟨lc, s₁⟩, hwc, ⟨lt, s₂⟩, hwt, ⟨le, s₃⟩, hwe, ⟨ln, s₄⟩, hwn, rfl, rfl⟩ := hw
      obtain ⟨rfl, rfl⟩ := hc ho.1 hwc
      obtain ⟨rfl, rfl⟩ := ht ho.2.1 hwt
      obtain ⟨rfl, rfl⟩ := he ho.2.2.1 hwe
      obtain ⟨rfl, rfl⟩ := hn ho.2.2.2 hwn
      exact ⟨rfl, rfl⟩

/-- Both walks of a chain, from `c`: the leaky one succeeds as well, and they end side by side. -/
def Tracking.Follows (floor : Nat) (c : Tracking) (h : Hir) (l : List (String × Nat)) (s : Scope)
    (leaked : List String) : Prop :=
  ∃ l' c', c'.lexical = s ∧ c'.leaked = leaked ∧ walk true h c.leaky = some (l', c'.leaky) ∧ c'.Ok floor ∧
    c.Moves c' h.declared l l'

/-- **Where no hidden name occurs, leaky scoping is lexical scoping.** -/
theorem leakWalk_follows {floor : Nat} (h : Hir) (hnested : h.nestedOccurrences = []) :
    ∀ {c : Tracking} {l : List (String × Nat)} {s : Scope} {leaked : List String}, c.Ok floor →
      walk false h c.lexical = some (l, s) → leakWalk h c.leaked = some leaked →
      c.Follows floor h l s leaked := by
  induction h with
  | nil =>
      intro c l s leaked hok hw hl
      cases hw
      cases hl
      exact ⟨[], c, rfl, rfl, rfl, hok, .refl c⟩
  | leaf i op n hn =>
      intro c l s leaked hok hw hl
      cases op with
      | «variable» x =>
          simp only [walk, bind, Option.bind_eq_some_iff, Option.some.injEq, Prod.mk.injEq] at hw
          obtain ⟨k, hk, ⟨ln, s₂⟩, hwn, rfl, rfl⟩ := hw
          simp only [leakWalk, Option.ite_none_left_eq_some] at hl
          obtain ⟨l', c', rfl, rfl, hw', hok', hm⟩ := hn hnested (hok.note x k) hwn hl.2
          have hlook : c.leaky.env.lookup x = some (c.id k) := hok.right x k hk hl.1
          refine ⟨(x, c.id k) :: l', c', rfl, rfl, ?_, hok', ?_⟩
          · have hw'' : walk true n c.leaky = some (l', c'.leaky) := hw'
            simp [walk, hlook, hw'']
          · exact (Tracking.moves_note (hok.lookup_lt hk).2).trans hm
      | _ => exact hn hnested hok hw hl
  | one i op a n ha hn =>
      intro c l s leaked hok hw hl
      cases op with
      | variableDecl x t =>
          simp only [Hir.nestedOccurrences, List.append_eq_nil_iff] at hnested
          simp only [walk, bind, Option.bind_eq_some_iff, Option.some.injEq, Prod.mk.injEq] at hw
          obtain ⟨⟨la, s₁⟩, hwa, ⟨ln, s₂⟩, hwn, rfl, rfl⟩ := hw
          simp only [leakWalk, bind, Option.bind_eq_some_iff] at hl
          obtain ⟨leaked₁, hla, hln⟩ := hl
          obtain ⟨la', c₁, rfl, rfl, hwa', hok₁, hm₁⟩ := ha hnested.1 hok hwa hla
          obtain ⟨ln', c₂, rfl, rfl, hwn', hok₂, hm₂⟩ := hn hnested.2 (hok₁.declare x) hwn hln
          refine ⟨la' ++ (x, c₁.leaky.next) :: ln', c₂, rfl, rfl, ?_, hok₂, ?_⟩
          · have hwn'' : walk true n (c₁.leaky.declare x) = some (ln', c₂.leaky) := hwn'
            simp [walk, hwa', hwn'']
          · exact hm₁.trans ((Tracking.moves_declare c₁ x).trans hm₂)
      | reassign x t =>
          simp only [Hir.nestedOccurrences, List.append_eq_nil_iff] at hnested
          simp only [walk, bind, Option.bind_eq_some_iff, Option.some.injEq, Prod.mk.injEq] at hw
          obtain ⟨⟨la, s₁⟩, hwa, k, hk, ⟨ln, s₂⟩, hwn, rfl, rfl⟩ := hw
          simp only [leakWalk, bind, Option.bind_eq_some_iff, Option.ite_none_left_eq_some] at hl
          obtain ⟨leaked₁, hla, hx, hln⟩ := hl
          obtain ⟨la', c₁, rfl, rfl, hwa', hok₁, hm₁⟩ := ha hnested.1 hok hwa hla
          obtain ⟨ln', c₂, rfl, rfl, hwn', hok₂, hm₂⟩ := hn hnested.2 (hok₁.note x k) hwn hln
          have hlook : c₁.leaky.env.lookup x = some (c₁.id k) := hok₁.right x k hk hx
          refine ⟨la' ++ (x, c₁.id k) :: ln', c₂, rfl, rfl, ?_, hok₂, ?_⟩
          · have hwn'' : walk true n c₁.leaky = some (ln', c₂.leaky) := hwn'
            simp [walk, hwa', hlook, hwn'']
          · exact hm₁.trans ((Tracking.moves_note (hok₁.lookup_lt hk).2).trans hm₂)
      | function f names =>
          simp only [Hir.nestedOccurrences, List.append_eq_nil_iff] at hnested
          obtain ⟨rfl, hbody, hrest⟩ := hnested
          simp only [walk, bind, Option.bind_eq_some_iff, Option.some.injEq, Prod.mk.injEq, Bool.false_eq_true,
            if_false] at hw
          obtain ⟨⟨la, s₁⟩, hwa, ⟨ln, s₂⟩, hwn, rfl, rfl⟩ := hw
          obtain ⟨rfl, rfl⟩ := walk_silent a hbody hwa
          exact hn hrest hok hwn hl
      | program =>
          simp only [Hir.nestedOccurrences, List.append_eq_nil_iff] at hnested
          simp only [walk, bind, Option.bind_eq_some_iff, Option.some.injEq, Prod.mk.injEq, Bool.false_eq_true,
            if_false] at hw
          obtain ⟨⟨la, s₁⟩, hwa, ⟨ln, s₂⟩, hwn, rfl, rfl⟩ := hw
          simp only [leakWalk, bind, Option.bind_eq_some_iff] at hl
          obtain ⟨leaked₁, hla, hln⟩ := hl
          obtain ⟨la', c₁, rfl, rfl, hwa', hok₁, hm₁⟩ := ha hnested.1 hok hwa hla
          obtain ⟨ln', c₂, rfl, rfl, hwn', hok₂, hm₂⟩ := hn hnested.2 (hok.leak hok₁ hm₁) hwn hln
          refine ⟨la' ++ ln', c₂, rfl, rfl, ?_, hok₂, hm₁.leak.trans hm₂⟩
          have hwn'' : walk true n c₁.leaky = some (ln', c₂.leaky) := hwn'
          simp [walk, hwa', hwn'']
      | _ =>
          simp only [Hir.nestedOccurrences, List.append_eq_nil_iff] at hnested
          simp only [walk, bind, Option.bind_eq_some_iff, Option.some.injEq, Prod.mk.injEq] at hw
          obtain ⟨⟨la, s₁⟩, hwa, ⟨ln, s₂⟩, hwn, rfl, rfl⟩ := hw
          simp only [leakWalk, bind, Option.bind_eq_some_iff] at hl
          obtain ⟨leaked₁, hla, hln⟩ := hl
          obtain ⟨la', c₁, rfl, rfl, hwa', hok₁, hm₁⟩ := ha hnested.1 hok hwa hla
          obtain ⟨ln', c₂, rfl, rfl, hwn', hok₂, hm₂⟩ := hn hnested.2 hok₁ hwn hln
          refine ⟨la' ++ ln', c₂, rfl, rfl, ?_, hok₂, hm₁.trans hm₂⟩
          simp [walk, hwa', hwn']
  | two i op a b n ha hb hn =>
      intro c l s leaked hok hw hl
      simp only [Hir.nestedOccurrences, List.append_eq_nil_iff] at hnested
      cases op with
      | whileNode =>
          simp only [walk, bind, Option.bind_eq_some_iff, Option.some.injEq, Prod.mk.injEq] at hw
          obtain ⟨⟨la, s₁⟩, hwa, ⟨lb, s₃⟩, hwb, ⟨ln, s₂⟩, hwn, rfl, rfl⟩ := hw
          simp only [leakWalk, bind, Option.bind_eq_some_iff] at hl
          obtain ⟨leaked₁, hla, leaked₂, hlb, hln⟩ := hl
          obtain ⟨la', c₁, rfl, rfl, hwa', hok₁, hm₁⟩ := ha hnested.1 hok hwa hla
          obtain ⟨lb', c₂, rfl, rfl, hwb', hok₂, hm₂⟩ := hb hnested.2.1 hok₁ hwb hlb
          obtain ⟨ln', c₃, rfl, rfl, hwn', hok₃, hm₃⟩ := hn hnested.2.2 (hok₁.leaveBlock hok₂ hm₂) hwn hln
          refine ⟨la' ++ (lb' ++ ln'), c₃, rfl, rfl, ?_, hok₃, hm₁.trans (hm₂.leaveBlock.trans hm₃)⟩
          have hwn'' : walk true n (c₁.leaky.leave c₂.leaky) = some (ln', c₃.leaky) := hwn'
          simp [walk, hwa', hwb', hwn'']
      | _ =>
          simp only [walk, bind, Option.bind_eq_some_iff, Option.some.injEq, Prod.mk.injEq] at hw
          obtain ⟨⟨la, s₁⟩, hwa, ⟨lb, s₃⟩, hwb, ⟨ln, s₂⟩, hwn, rfl, rfl⟩ := hw
          simp only [leakWalk, bind, Option.bind_eq_some_iff] at hl
          obtain ⟨leaked₁, hla, leaked₂, hlb, hln⟩ := hl
          obtain ⟨la', c₁, rfl, rfl, hwa', hok₁, hm₁⟩ := ha hnested.1 hok hwa hla
          obtain ⟨lb', c₂, rfl, rfl, hwb', hok₂, hm₂⟩ := hb hnested.2.1 hok₁ hwb hlb
          obtain ⟨ln', c₃, rfl, rfl, hwn', hok₃, hm₃⟩ := hn hnested.2.2 hok₂ hwn hln
          refine ⟨la' ++ (lb' ++ ln'), c₃, rfl, rfl, ?_, hok₃, hm₁.trans (hm₂.trans hm₃)⟩
          simp [walk, hwa', hwb', hwn']
  | ifNode i cond t e n hc ht he hn =>
      intro c l s leaked hok hw hl
      simp only [Hir.nestedOccurrences, List.append_eq_nil_iff] at hnested
      simp only [walk, bind, Option.bind_eq_some_iff, Option.some.injEq, Prod.mk.injEq] at hw
      obtain ⟨⟨lc, s₁⟩, hwc, ⟨lt, s₂⟩, hwt, ⟨le, s₃⟩, hwe, ⟨ln, s₄⟩, hwn, rfl, rfl⟩ := hw
      simp only [leakWalk, bind, Option.bind_eq_some_iff] at hl
      obtain ⟨leaked₁, hlc, leaked₂, hlt, leaked₃, hle, hln⟩ := hl
      obtain ⟨lc', c₁, rfl, rfl, hwc', hok₁, hm₁⟩ := hc hnested.1 hok hwc hlc
      obtain ⟨lt', c₂, rfl, rfl, hwt', hok₂, hm₂⟩ := ht hnested.2.1 hok₁ hwt hlt
      have hok₂' := hok₁.leaveBlock hok₂ hm₂
      obtain ⟨le', c₃, rfl, rfl, hwe', hok₃, hm₃⟩ := he hnested.2.2.1 hok₂' hwe hle
      obtain ⟨ln', c₄, rfl, rfl, hwn', hok₄, hm₄⟩ := hn hnested.2.2.2 (hok₂'.leaveBlock hok₃ hm₃) hwn hln
      refine ⟨lc' ++ (lt' ++ (le' ++ ln')), c₄, rfl, rfl, ?_, hok₄,
        hm₁.trans (hm₂.leaveBlock.trans (hm₃.leaveBlock.trans hm₄))⟩
      have hwe'' : walk true e (c₁.leaky.leave c₂.leaky) = some (le', c₃.leaky) := hwe'
      have hwn'' : walk true n (c₁.leaky.leave c₃.leaky) = some (ln', c₄.leaky) := hwn'
      simp [walk, hwc', hwt', hwe'', hwn'']

/-! ## The first hidden name -/

/-- Two occurrences of one declaration were given different numbers. -/
def Clash (zs : List NotePair) : Prop := ∃ z ∈ zs, ∃ z' ∈ zs, z.1.2 = z'.1.2 ∧ z.2.2 ≠ z'.2.2

theorem Clash.mono {zs zs' : List NotePair} (h : Clash zs) (hsub : ∀ z ∈ zs, z ∈ zs') : Clash zs' := by
  obtain ⟨z, hz, z', hz', h⟩ := h
  exact ⟨z, hsub z hz, z', hsub z' hz', h⟩

section Clash

variable {floor : Nat} {c c₁ : Tracking} {xs : List String} {la la' ln ln' : List (String × Nat)}

/-- A clash in the first part is one of the whole. -/
theorem Clash.append {past : List NotePair} (h : Clash (past ++ la.zip la')) (hlen : la.length = la'.length) :
    Clash (past ++ (la ++ ln).zip (la' ++ ln')) := by
  refine h.mono fun z hz => ?_
  rw [List.zip_append hlen, ← List.append_assoc]
  exact List.mem_append_left _ hz

/-- So is a clash behind a first part in which the walks agree. -/
theorem Tracking.Notes.clash (hm : c.Notes c₁ la la') (h : Clash (c₁.past ++ ln.zip ln')) :
    Clash (c.past ++ (la ++ ln).zip (la' ++ ln')) := by
  rw [List.zip_append hm.length, ← List.append_assoc, ← hm.past]
  exact h

/-- A hidden name that occurs is found somewhere else than its declaration was. -/
theorem Tracking.Ok.clash (hok : c.Ok floor) {x : String} {k j : Nat} (hk : c.lexical.env.lookup x = some k)
    (hx : x ∈ c.leaked) (hj : c.leaky.env.lookup x = some j) (zs : List NotePair) :
    Clash (c.past ++ ((x, k), x, j) :: zs) := by
  obtain ⟨j', hj', -, -, hne⟩ := hok.wrong x hx
  obtain ⟨hmem, -⟩ := hok.lookup_lt hk
  rw [hj] at hj'
  cases hj'
  exact ⟨((x, k), x, j), by simp, ((x, k), x, c.id k), List.mem_append_left _ (hok.logged _ hmem), rfl, hne k hmem⟩

theorem walk_length {h : Hir} (hnested : h.nestedOccurrences = []) {s s' t t' : Scope}
    {l l' : List (String × Nat)} (hw : walk false h s = some (l, s')) (hw' : walk true h t = some (l', t')) :
    l.length = l'.length := by
  have h₁ := walk_names h Bool.noConfusion hw
  have h₂ := walk_names h (fun _ => hnested) hw'
  have := congrArg List.length (h₁.trans h₂.symm)
  simpa using this

/-- The walks clash, wherever they start from, if a hidden name occurs in the chain. -/
def Clashes (floor : Nat) (h : Hir) : Prop :=
  ∀ {c : Tracking} {l l' : List (String × Nat)} {s t : Scope}, c.Ok floor →
    walk false h c.lexical = some (l, s) → leakWalk h c.leaked = none → walk true h c.leaky = some (l', t) →
    Clash (c.past ++ l.zip l')

/-- The first part of a chain: a hidden name occurs in it, or it leads side by side to the rest. -/
theorem Clashes.first {a : Hir} (ha : Clashes floor a) (hnested : a.nestedOccurrences = []) (hok : c.Ok floor)
    {s t : Scope} (hwa : walk false a c.lexical = some (la, s)) (hwa' : walk true a c.leaky = some (la', t))
    {f : List String → Option (List String)} (hl : (leakWalk a c.leaked).bind f = none)
    (hrest : ∀ c₁ : Tracking, c₁.lexical = s → c₁.leaky = t → c₁.Ok floor → c.Moves c₁ a.declared la la' →
      f c₁.leaked = none → Clash (c₁.past ++ ln.zip ln')) :
    Clash (c.past ++ (la ++ ln).zip (la' ++ ln')) := by
  cases hla : leakWalk a c.leaked with
  | none => exact (ha hok hwa hla hwa').append (walk_length hnested hwa hwa')
  | some leaked =>
      obtain ⟨_, c₁, rfl, rfl, heq, hok₁, hm⟩ := leakWalk_follows a hnested hok hwa hla
      rw [hwa'] at heq
      cases heq
      rw [hla] at hl
      exact hm.clash (hrest c₁ rfl rfl hok₁ hm hl)

end Clash

/-- **An occurrence of a hidden name breaks the correspondence.** -/
theorem leakWalk_clashes {floor : Nat} (h : Hir) (hnested : h.nestedOccurrences = []) : Clashes floor h := by
  induction h with
  | nil => intro c l l' s t _ _ hl _; cases hl
  | leaf i op n hn =>
      intro c l l' s t hok hw hl hw'
      cases op with
      | «variable» x =>
          simp only [walk, bind, Option.bind_eq_some_iff, Option.some.injEq, Prod.mk.injEq] at hw hw'
          obtain ⟨k, hk, ⟨ln, s₂⟩, hwn, rfl, rfl⟩ := hw
          obtain ⟨j, hj, ⟨ln', t₂⟩, hwn', rfl, rfl⟩ := hw'
          by_cases hx : x ∈ c.leaked
          · exact hok.clash hk hx hj _
          · rw [leakWalk, if_neg hx] at hl
            have hclash := hn hnested (hok.note x k) hwn hl hwn'
            rw [hok.right x k hk hx] at hj
            cases hj
            exact (Tracking.moves_note (hok.lookup_lt hk).2).clash hclash
      | _ => exact hn hnested hok hw hl hw'
  | one i op a n ha hn =>
      intro c l l' s t hok hw hl hw'
      cases op with
      | variableDecl x ty =>
          simp only [Hir.nestedOccurrences, List.append_eq_nil_iff] at hnested
          simp only [walk, bind, Option.bind_eq_some_iff, Option.some.injEq, Prod.mk.injEq] at hw hw'
          obtain ⟨⟨la, s₁⟩, hwa, ⟨ln, s₂⟩, hwn, rfl, rfl⟩ := hw
          obtain ⟨⟨la', t₁⟩, hwa', ⟨ln', t₂⟩, hwn', rfl, rfl⟩ := hw'
          refine Clashes.first (ha hnested.1) hnested.1 hok hwa hwa' hl ?_
          rintro c₁ rfl rfl hok₁ - hl'
          exact (Tracking.moves_declare c₁ x).clash (hn hnested.2 (hok₁.declare x) hwn hl' hwn')
      | reassign x ty =>
          simp only [Hir.nestedOccurrences, List.append_eq_nil_iff] at hnested
          simp only [walk, bind, Option.bind_eq_some_iff, Option.some.injEq, Prod.mk.injEq] at hw hw'
          obtain ⟨⟨la, s₁⟩, hwa, k, hk, ⟨ln, s₂⟩, hwn, rfl, rfl⟩ := hw
          obtain ⟨⟨la', t₁⟩, hwa', j, hj, ⟨ln', t₂⟩, hwn', rfl, rfl⟩ := hw'
          refine Clashes.first (ha hnested.1) hnested.1 hok hwa hwa' hl ?_
          rintro c₁ rfl rfl hok₁ - hl'
          by_cases hx : x ∈ c₁.leaked
          · exact hok₁.clash hk hx hj _
          · rw [if_neg hx] at hl'
            have hclash := hn hnested.2 (hok₁.note x k) hwn hl' hwn'
            rw [hok₁.right x k hk hx] at hj
            cases hj
            exact (Tracking.moves_note (hok₁.lookup_lt hk).2).clash hclash
      | function f names =>
          simp only [Hir.nestedOccurrences, List.append_eq_nil_iff] at hnested
          obtain ⟨rfl, hbody, hrest⟩ := hnested
          simp only [walk, bind, Option.bind_eq_some_iff, Option.some.injEq, Prod.mk.injEq, Bool.false_eq_true,
            if_false] at hw
          obtain ⟨⟨la, s₁⟩, hwa, ⟨ln, s₂⟩, hwn, rfl, rfl⟩ := hw
          obtain ⟨rfl, rfl⟩ := walk_silent a hbody hwa
          exact hn hrest hok hwn hl hw'
      | program =>
          simp only [Hir.nestedOccurrences, List.append_eq_nil_iff] at hnested
          simp only [walk, bind, Option.bind_eq_some_iff, Option.some.injEq, Prod.mk.injEq, Bool.false_eq_true,
            if_false, if_true] at hw hw'
          obtain ⟨⟨la, s₁⟩, hwa, ⟨ln, s₂⟩, hwn, rfl, rfl⟩ := hw
          obtain ⟨⟨la', t₁⟩, hwa', ⟨ln', t₂⟩, hwn', rfl, rfl⟩ := hw'
          refine Clashes.first (ha hnested.1) hnested.1 hok hwa hwa' hl ?_
          rintro c₁ rfl rfl hok₁ hm hl'
          have hclash := hn hnested.2 (hok.leak hok₁ hm) hwn hl' hwn'
          exact hclash
      | _ =>
          simp only [Hir.nestedOccurrences, List.append_eq_nil_iff] at hnested
          simp only [walk, bind, Option.bind_eq_some_iff, Option.some.injEq, Prod.mk.injEq] at hw hw'
          obtain ⟨⟨la, s₁⟩, hwa, ⟨ln, s₂⟩, hwn, rfl, rfl⟩ := hw
          obtain ⟨⟨la', t₁⟩, hwa', ⟨ln', t₂⟩, hwn', rfl, rfl⟩ := hw'
          refine Clashes.first (ha hnested.1) hnested.1 hok hwa hwa' hl ?_
          rintro c₁ rfl rfl hok₁ - hl'
          exact hn hnested.2 hok₁ hwn hl' hwn'
  | two i op a b n ha hb hn =>
      intro c l l' s t hok hw hl hw'
      simp only [Hir.nestedOccurrences, List.append_eq_nil_iff] at hnested
      obtain ⟨hna, hnb, hnn⟩ := hnested
      cases op with
      | whileNode =>
          simp only [walk, bind, Option.bind_eq_some_iff, Option.some.injEq, Prod.mk.injEq] at hw hw'
          obtain ⟨⟨la, s₁⟩, hwa, ⟨lb, s₃⟩, hwb, ⟨ln, s₂⟩, hwn, rfl, rfl⟩ := hw
          obtain ⟨⟨la', t₁⟩, hwa', ⟨lb', t₃⟩, hwb', ⟨ln', t₂⟩, hwn', rfl, rfl⟩ := hw'
          refine Clashes.first (ha hna) hna hok hwa hwa' hl ?_
          rintro c₁ rfl rfl hok₁ - hl₁
          refine Clashes.first (hb hnb) hnb hok₁ hwb hwb' hl₁ ?_
          rintro c₂ rfl rfl hok₂ hm hl₂
          have hclash := hn hnn (hok₁.leaveBlock hok₂ hm) hwn hl₂ hwn'
          exact hclash
      | _ =>
          simp only [walk, bind, Option.bind_eq_some_iff, Option.some.injEq, Prod.mk.injEq] at hw hw'
          obtain ⟨⟨la, s₁⟩, hwa, ⟨lb, s₃⟩, hwb, ⟨ln, s₂⟩, hwn, rfl, rfl⟩ := hw
          obtain ⟨⟨la', t₁⟩, hwa', ⟨lb', t₃⟩, hwb', ⟨ln', t₂⟩, hwn', rfl, rfl⟩ := hw'
          refine Clashes.first (ha hna) hna hok hwa hwa' hl ?_
          rintro c₁ rfl rfl hok₁ - hl₁
          refine Clashes.first (hb hnb) hnb hok₁ hwb hwb' hl₁ ?_
          rintro c₂ rfl rfl hok₂ - hl₂
          exact hn hnn hok₂ hwn hl₂ hwn'
  | ifNode i cond th e n hc ht he hn =>
      intro c l l' s t hok hw hl hw'
      simp only [Hir.nestedOccurrences, List.append_eq_nil_iff] at hnested
      obtain ⟨hnc, hnt, hne, hnn⟩ := hnested
      simp only [walk, bind, Option.bind_eq_some_iff, Option.some.injEq, Prod.mk.injEq] at hw hw'
      obtain ⟨⟨lc, s₁⟩, hwc, ⟨lt, s₂⟩, hwt, ⟨le, s₃⟩, hwe, ⟨ln, s₄⟩, hwn, rfl, rfl⟩ := hw
      obtain ⟨⟨lc', t₁⟩, hwc', ⟨lt', t₂⟩, hwt', ⟨le', t₃⟩, hwe', ⟨ln', t₄⟩, hwn', rfl, rfl⟩ := hw'
      refine Clashes.first (hc hnc) hnc hok hwc hwc' hl ?_
      rintro c₁ rfl rfl hok₁ - hl₁
      refine Clashes.first (ht hnt) hnt hok₁ hwt hwt' hl₁ ?_
      rintro c₂ rfl rfl hok₂ hm₂ hl₂
      -- The second arm starts where the first one did, with more numbers used up.
      have hok₂' := hok₁.leaveBlock hok₂ hm₂
      refine @Clashes.first floor (c₁.leaveBlock c₂) _ _ _ _ e (he hne) hne hok₂' _ _ hwe hwe' _ hl₂ ?_
      rintro c₃ rfl rfl hok₃ hm₃ hl₃
      have hclash := hn hnn (hok₂'.leaveBlock hok₃ hm₃) hwn hl₃ hwn'
      exact hclash

end Vnt
