import Mathlib.Data.Prod.Basic
import Mathlib.Data.List.Nodup
import Vnt.Ir.Leaks
import Vnt.Ir.Resolve

/-!
# `Ir.RootScopes` — storage keys and declarations of a whole program

At the root the resolver has numbered the declarations beforehand. Apart from that the children of the root are
walked like any chain, so the result for chains carries over: the keys of a program correspond to its
declarations exactly if no name occurs that an unsafe block has hidden, and no function inside another
statement holds a variable.
-/

namespace Vnt

/-! ## One child after the other -/

theorem walk_cons {leaky : Bool} (h : Hir) (s : Scope) : walk leaky h s = (do
    let h' ← walk leaky h.head s
    let n' ← walk leaky h.next h'.2
    some (h'.1 ++ n'.1, n'.2)) := by
  cases h with
  | nil => rfl
  | leaf i op n =>
      cases op <;> simp [walk, Hir.head, Hir.next, Option.bind_assoc]
  | one i op a n =>
      cases op with
      | function f names =>
          cases leaky <;> simp [walk, Hir.head, Hir.next, Option.bind_assoc]
      | program => cases leaky <;> simp [walk, Hir.head, Hir.next, Option.bind_assoc]
      | _ => simp [walk, Hir.head, Hir.next, Option.bind_assoc]
  | two i op a b n => cases op <;> simp [walk, Hir.head, Hir.next, Option.bind_assoc]
  | ifNode i c t e n => simp [walk, Hir.head, Hir.next, Option.bind_assoc]

/-- Declarations stand only where statements stand. -/
def Hir.rootPlain : Hir → Prop
  | .nil => True
  | .one _ (.variableDecl _ _) a n => a.declared = [] ∧ n.rootPlain
  | .one _ (.function _ _) _ n => n.rootPlain
  | .leaf _ _ n => n.rootPlain
  | .one i op a n => (Hir.one i op a .nil).declared = [] ∧ n.rootPlain
  | .two i op a b n => (Hir.two i op a b .nil).declared = [] ∧ n.rootPlain
  | .ifNode i c t e n => (Hir.ifNode i c t e .nil).declared = [] ∧ n.rootPlain

/-! ## Side by side at the root -/

/-- `gl` numbers the declarations of the root below `floor`; `globals` lists it in another order. -/
structure Numbered (floor : Nat) (globals gl : List (String × Nat)) : Prop where
  lookup : ∀ x, globals.lookup x = gl.lookup x
  lt : ∀ x g, gl.lookup x = some g → g < floor
  inj : ∀ x y g, gl.lookup x = some g → gl.lookup y = some g → x = y

/-- Between two children of the root: hidden names lie over the root's own, and declarations still to come have
    numbers that nothing else has. -/
structure Tracking.RootOk (floor : Nat) (gl : List (String × Nat)) (pending : List String) (c : Tracking) : Prop
    extends c.Ok floor where
  stack : ∃ above, c.leaky.env = above ++ gl ∧ ∀ p ∈ above, p.1 ∈ c.leaked
  globals : ∀ p ∈ c.lexical.env, gl.lookup p.1 = some (c.id p.2)
  pending : ∀ x ∈ pending, (∀ k, (x, k) ∉ c.lexical.env) ∧
    ∃ g, gl.lookup x = some g ∧ ∀ k < c.lexical.next, c.id k ≠ g

section Root

variable {floor : Nat} {globals gl : List (String × Nat)} {pending : List String} {c c₁ : Tracking}
  {l l' : List (String × Nat)}

/-- A child that declares nothing. -/
theorem Tracking.RootOk.moves (hn : Numbered floor globals gl) (h : c.RootOk floor gl pending)
    (h' : c₁.Ok floor) (hm : c.Moves c₁ [] l l') : c₁.RootOk floor gl pending := by
  obtain ⟨new, henv, -, hnames⟩ := hm.grows.env
  have hnil : new = [] := by
    rw [List.eq_nil_iff_forall_not_mem]
    intro p hp
    have := (hnames p.1).mp (List.mem_map_of_mem hp)
    cases this
  subst hnil
  have henv' : c₁.lexical.env = c.lexical.env := henv
  refine ⟨h', ?_, ?_, ?_⟩
  · obtain ⟨above, hs, hover⟩ := h.stack
    obtain ⟨new, he, hnew⟩ := hm.env
    refine ⟨new ++ above, by rw [he, hs, List.append_assoc], fun p hp => ?_⟩
    rcases List.mem_append.mp hp with hp | hp
    · exact (hnew p hp).elim (fun h => h) fun h => by cases h
    · exact (hm.shrinks _ (hover p hp)).elim (fun h => h) fun h => by cases h
  · intro p hp
    rw [henv'] at hp
    rw [hm.agree p.2 (h.bound p hp)]
    exact h.globals p hp
  · intro x hx
    obtain ⟨hfree, g, hg, hne⟩ := h.pending x hx
    refine ⟨fun k => henv' ▸ hfree k, g, hg, fun k hk => ?_⟩
    by_cases hlt : k < c.lexical.next
    · rw [hm.agree k hlt]
      exact hne k hlt
    · -- A number given since then is not below the floor.
      have h₁ := hm.fresh k (by omega) hk
      have h₂ := hn.lt x g hg
      have h₃ := h.floor_le
      omega

/-- A declaration of the root: it gets its own number, and is not pushed. -/
def Tracking.declareRoot (c : Tracking) (x : String) (g : Nat) : Tracking where
  lexical := c.lexical.declare x
  leaky := c.leaky
  id := fun k => if k = c.lexical.next then g else c.id k
  leaked := c.leaked
  past := c.past ++ [((x, c.lexical.next), x, g)]

theorem Tracking.notes_declareRoot (c : Tracking) (x : String) (g : Nat) :
    c.Notes (c.declareRoot x g) [(x, c.lexical.next)] [(x, g)] where
  past := rfl
  same := by simp [declareRoot]
  bounded := by simp [declareRoot, Scope.declare]
  lexical_le := Nat.le_succ _
  agree := fun k hk => if_neg (by omega)

theorem Tracking.RootOk.declareRoot (hn : Numbered floor globals gl) {x : String} {g : Nat}
    (h : c.RootOk floor gl (x :: pending)) (hx : x ∉ pending) (hg : gl.lookup x = some g) :
    (c.declareRoot x g).RootOk floor gl pending := by
  have hidlt : ∀ {k}, k < c.lexical.next → (c.declareRoot x g).id k = c.id k := fun hk => if_neg (by omega)
  have hidnext : (c.declareRoot x g).id c.lexical.next = g := if_pos rfl
  obtain ⟨hfree, g', hg', hne⟩ := h.pending x List.mem_cons_self
  rw [hg] at hg'
  cases hg'
  have hglt := hn.lt x g hg
  obtain ⟨above, hs, hover⟩ := h.stack
  refine ⟨⟨?_, ?_, ?_, h.floor_le, ?_, ?_, ?_⟩, ⟨above, hs, hover⟩, ?_, ?_⟩
  · intro p hp
    rcases List.mem_cons.mp hp with rfl | hp
    · exact Nat.lt_succ_self _
    · exact Nat.lt_succ_of_lt (h.bound p hp)
  · intro k hk k' hk' heq
    have hk₁ : k < c.lexical.next + 1 := hk
    have hk₁' : k' < c.lexical.next + 1 := hk'
    simp only [Tracking.declareRoot] at heq
    split at heq <;> split at heq
    · omega
    · exact absurd heq.symm (hne k' (by omega))
    · exact absurd heq (hne k (by omega))
    · exact h.inj k (by omega) k' (by omega) heq
  · intro k hk
    have hk₁ : k < c.lexical.next + 1 := hk
    have := h.floor_le
    simp only [Tracking.declareRoot]
    split
    · omega
    · exact h.id_lt k (by omega)
  · intro y k hk hy
    by_cases hyx : y = x
    · subst hyx
      simp only [Tracking.declareRoot, Scope.declare, List.lookup_cons_self, Option.some.injEq] at hk
      subst hk
      rw [hidnext]
      -- Nothing hidden lies over it.
      have hover' : above.lookup y = none := by
        rw [List.lookup_eq_none_iff]
        intro p hp
        have : p.1 ≠ y := by
          rintro rfl
          exact hy (hover p hp)
        simpa using fun h => this h.symm
      show c.leaky.env.lookup y = some g
      rw [hs, List.lookup_append, hover', hg]
      rfl
    · have hyx' : (y == x) = false := by simpa using hyx
      simp only [Tracking.declareRoot, Scope.declare, List.lookup_cons, hyx'] at hk
      rw [hidlt (h.lookup_lt hk).2]
      exact h.right y k hk hy
  · intro y hy
    obtain ⟨j, hj, hfloor, hlt, hjne⟩ := h.wrong y hy
    refine ⟨j, hj, hfloor, hlt, fun k hk => ?_⟩
    rcases List.mem_cons.mp hk with heq | hk
    · cases heq
      rw [hidnext]
      omega
    · rw [hidlt (h.bound _ hk)]
      exact hjne k hk
  · intro p hp
    rcases List.mem_cons.mp hp with rfl | hp
    · refine List.mem_append_right _ ?_
      simp [Tracking.declareRoot]
    · refine List.mem_append_left _ ?_
      rw [hidlt (h.bound p hp)]
      exact h.logged p hp
  · intro p hp
    rcases List.mem_cons.mp hp with rfl | hp
    · rw [hidnext]
      exact hg
    · rw [hidlt (h.bound p hp)]
      exact h.globals p hp
  · intro y hy
    have hyx : y ≠ x := by
      rintro rfl
      exact hx hy
    obtain ⟨hyfree, gy, hgy, hyne⟩ := h.pending y (List.mem_cons_of_mem x hy)
    refine ⟨fun k hk => ?_, gy, hgy, fun k hk => ?_⟩
    · rcases List.mem_cons.mp hk with heq | hk
      · cases heq
        exact hyx rfl
      · exact hyfree k hk
    · have hk₁ : k < c.lexical.next + 1 := hk
      simp only [Tracking.declareRoot]
      split
      · rintro rfl
        exact hyx (hn.inj y x _ hgy hg)
      · exact hyne k (by omega)

/-- The parameters of a function. -/
theorem Tracking.Ok.declareAll (names : List String) : ∀ {c : Tracking}, c.Ok floor →
    ∃ c' : Tracking, c'.lexical = (Scope.declareAll names c.lexical).2 ∧
      c'.leaky = (Scope.declareAll names c.leaky).2 ∧ c'.leaked = c.leaked.filter (· ∉ names) ∧ c'.Ok floor ∧
      c.Moves c' names (Scope.declareAll names c.lexical).1 (Scope.declareAll names c.leaky).1 := by
  induction names with
  | nil => intro c hok; exact ⟨c, rfl, rfl, by simp, hok, .refl c⟩
  | cons x names ih =>
      intro c hok
      obtain ⟨c', hlex, hleaky, hleaked, hok', hm⟩ := ih (hok.declare x)
      refine ⟨c', hlex, hleaky, ?_, hok', (Tracking.moves_declare c x).trans hm⟩
      rw [hleaked, Tracking.declare, List.filter_filter]
      refine List.filter_congr fun y _ => ?_
      simp [Bool.and_comm]

/-- The body of a function of the root, from its parameters to its end. -/
theorem leakWalk_function {names : List String} {a : Hir} {s : Scope} {la : List (String × Nat)}
    {leaked : List String} (hnested : a.nestedOccurrences = []) (hok : c.Ok floor)
    (hwa : walk false a (Scope.declareAll names c.lexical).2 = some (la, s))
    (hl : leakWalk a (c.leaked.filter (· ∉ names)) = some leaked) :
    ∃ la' c', (c.leaveBlock c').lexical = c.lexical.leave s ∧
      walk true a (Scope.declareAll names c.leaky).2 = some (la', c'.leaky) ∧ (c.leaveBlock c').Ok floor ∧
      c.Moves (c.leaveBlock c') [] ((Scope.declareAll names c.lexical).1 ++ la)
        ((Scope.declareAll names c.leaky).1 ++ la') := by
  obtain ⟨c₁, hlex, hleaky, hleaked, hok₁, hm₁⟩ := hok.declareAll names
  rw [← hlex] at hwa
  rw [← hleaked] at hl
  obtain ⟨la', c₂, rfl, -, hwa', hok₂, hm₂⟩ := leakWalk_follows a hnested hok₁ hwa hl
  rw [hleaky] at hwa'
  have hm := hm₁.trans hm₂
  exact ⟨la', c₂, rfl, hwa', hok.leaveBlock hok₂ hm, hm.leaveBlock⟩

/-- **Over the root's children, too.** -/
theorem leakTop_follows (hn : Numbered floor globals gl) (h : Hir) (hnested : h.rootNested = [])
    (hplain : h.rootPlain) (hnodup : h.rootDeclared.Nodup) :
    ∀ {c : Tracking} {l : List (String × Nat)} {s : Scope} {leaked : List String},
      c.RootOk floor gl h.rootDeclared → walk false h c.lexical = some (l, s) → leakTop h c.leaked = some leaked →
      ∃ l' c', c'.lexical = s ∧ walkTop globals h c.leaky = some (l', c'.leaky) ∧ c'.Ok floor ∧ c.Notes c' l l' := by
  -- A child that declares nothing, and the rest.
  have statement : ∀ {h n : Hir} {c : Tracking} {l : List (String × Nat)} {s : Scope} {leaked : List String},
      h.nestedOccurrences = [] → h.declared = [] → c.RootOk floor gl n.rootDeclared →
      (∀ {c : Tracking} {l : List (String × Nat)} {s : Scope} {leaked : List String},
        c.RootOk floor gl n.rootDeclared → walk false n c.lexical = some (l, s) →
        leakTop n c.leaked = some leaked → ∃ l' c', c'.lexical = s ∧
          walkTop globals n c.leaky = some (l', c'.leaky) ∧ c'.Ok floor ∧ c.Notes c' l l') →
      (do let h' ← walk false h c.lexical; let n' ← walk false n h'.2; some (h'.1 ++ n'.1, n'.2)) = some (l, s) →
      (do let leaked ← leakWalk h c.leaked; leakTop n leaked) = some leaked →
      ∃ l' c', c'.lexical = s ∧
        (do let h' ← walk true h c.leaky; let n' ← walkTop globals n h'.2; some (h'.1 ++ n'.1, n'.2)) =
          some (l', c'.leaky) ∧ c'.Ok floor ∧ c.Notes c' l l' := by
    intro h n c l s leaked hnested hdecl hok ih hw hl
    simp only [bind, Option.bind_eq_some_iff, Option.some.injEq, Prod.mk.injEq] at hw hl
    obtain ⟨⟨la, s₁⟩, hwa, ⟨ln, s₂⟩, hwn, rfl, rfl⟩ := hw
    obtain ⟨leaked₁, hla, hln⟩ := hl
    obtain ⟨la', c₁, rfl, rfl, hwa', hok₁, hm⟩ := leakWalk_follows h hnested hok.toOk hwa hla
    rw [hdecl] at hm
    obtain ⟨ln', c₂, rfl, hwn', hok₂, hnotes⟩ := ih (hok.moves hn hok₁ hm) hwn hln
    refine ⟨la' ++ ln', c₂, rfl, ?_, hok₂, hm.toNotes.trans hnotes⟩
    simp [hwa', hwn']
  induction h with
  | nil =>
      intro c l s leaked hok hw hl
      cases hw
      exact ⟨[], c, rfl, rfl, hok.toOk, .refl c⟩
  | leaf i op n ih =>
      intro c l s leaked hok hw hl
      rw [walk_cons] at hw
      have hdecl : (Hir.leaf i op .nil).declared = [] := rfl
      exact statement (h := .leaf i op .nil) (n := n) rfl hdecl hok (ih hnested hplain hnodup) hw hl
  | one i op a n _ ih =>
      intro c l s leaked hok hw hl
      simp only [Hir.rootNested, List.append_eq_nil_iff] at hnested
      cases op with
      | function f names =>
          simp only [walk, bind, Option.bind_eq_some_iff, Option.some.injEq, Prod.mk.injEq, Bool.false_eq_true,
            if_false] at hw
          obtain ⟨⟨la, s₁⟩, hwa, ⟨ln, s₂⟩, hwn, rfl, rfl⟩ := hw
          simp only [leakTop, bind, Option.bind_eq_some_iff] at hl
          obtain ⟨leaked₁, hla, hln⟩ := hl
          obtain ⟨la', c₁, hlex, hwa', hok₁, hm⟩ := leakWalk_function hnested.1 hok.toOk hwa hla
          rw [← hlex] at hwn
          obtain ⟨ln', c₂, rfl, hwn', hok₂, hnotes⟩ :=
            ih hnested.2 hplain hnodup (hok.moves hn hok₁ hm) hwn hln
          have hwn'' : walkTop globals n (c.leaky.leave c₁.leaky) = some (ln', c₂.leaky) := hwn'
          refine ⟨_, c₂, rfl, by simp [walkTop, hwa', hwn'']; rfl, hok₂, ?_⟩
          rw [← List.append_assoc, ← List.append_assoc]
          exact hm.toNotes.trans hnotes
      | variableDecl x t =>
          obtain ⟨hdecl, hplain⟩ := hplain
          obtain ⟨hx, hnodup⟩ := List.nodup_cons.mp hnodup
          simp only [walk, bind, Option.bind_eq_some_iff, Option.some.injEq, Prod.mk.injEq] at hw
          obtain ⟨⟨la, s₁⟩, hwa, ⟨ln, s₂⟩, hwn, rfl, rfl⟩ := hw
          simp only [leakTop, bind, Option.bind_eq_some_iff] at hl
          obtain ⟨leaked₁, hla, hln⟩ := hl
          obtain ⟨la', c₁, rfl, rfl, hwa', hok₁, hm⟩ := leakWalk_follows a hnested.1 hok.toOk hwa hla
          rw [hdecl] at hm
          have hroot := hok.moves hn hok₁ hm
          obtain ⟨-, g, hg, -⟩ := hroot.pending x List.mem_cons_self
          obtain ⟨ln', c₂, rfl, hwn', hok₂, hnotes⟩ :=
            ih hnested.2 hplain hnodup (hroot.declareRoot hn hx hg) hwn hln
          have hwn'' : walkTop globals n c₁.leaky = some (ln', c₂.leaky) := hwn'
          refine ⟨la' ++ (x, g) :: ln', c₂, rfl, by simp [walkTop, hn.lookup, hg, hwa', hwn''], hok₂, ?_⟩
          exact hm.toNotes.trans ((Tracking.notes_declareRoot c₁ x g).trans hnotes)
      | _ =>
          rw [walk_cons] at hw
          refine statement (n := n) ?_ hplain.1 hok (ih hnested.2 hplain.2 hnodup) hw hl
          simp [Hir.nestedOccurrences, hnested.1]
  | two i op a b n _ _ ih =>
      intro c l s leaked hok hw hl
      simp only [Hir.rootNested, List.append_eq_nil_iff] at hnested
      rw [walk_cons] at hw
      refine statement (n := n) ?_ hplain.1 hok (ih hnested.2.2 hplain.2 hnodup) hw hl
      simp [Hir.nestedOccurrences, hnested.1, hnested.2.1]
  | ifNode i cond t e n _ _ _ ih =>
      intro c l s leaked hok hw hl
      simp only [Hir.rootNested, List.append_eq_nil_iff] at hnested
      rw [walk_cons] at hw
      refine statement (n := n) ?_ hplain.1 hok (ih hnested.2.2.2 hplain.2 hnodup) hw hl
      simp [Hir.nestedOccurrences, hnested.1, hnested.2.1, hnested.2.2.1]

/-- **A hidden name at the root, or in one of its functions, breaks the correspondence.** -/
theorem leakTop_clash (hn : Numbered floor globals gl) (h : Hir) (hnested : h.rootNested = [])
    (hplain : h.rootPlain) (hnodup : h.rootDeclared.Nodup) :
    ∀ {c : Tracking} {l l' : List (String × Nat)} {s t : Scope}, c.RootOk floor gl h.rootDeclared →
      walk false h c.lexical = some (l, s) → leakTop h c.leaked = none →
      walkTop globals h c.leaky = some (l', t) → Clash (c.past ++ l.zip l') := by
  have statement : ∀ {h n : Hir} {c : Tracking} {l l' : List (String × Nat)} {s t : Scope},
      h.nestedOccurrences = [] → h.declared = [] → c.RootOk floor gl n.rootDeclared →
      (∀ {c : Tracking} {l l' : List (String × Nat)} {s t : Scope}, c.RootOk floor gl n.rootDeclared →
        walk false n c.lexical = some (l, s) → leakTop n c.leaked = none →
        walkTop globals n c.leaky = some (l', t) → Clash (c.past ++ l.zip l')) →
      (do let h' ← walk false h c.lexical; let n' ← walk false n h'.2; some (h'.1 ++ n'.1, n'.2)) = some (l, s) →
      (do let leaked ← leakWalk h c.leaked; leakTop n leaked) = none →
      (do let h' ← walk true h c.leaky; let n' ← walkTop globals n h'.2; some (h'.1 ++ n'.1, n'.2)) =
        some (l', t) → Clash (c.past ++ l.zip l') := by
    intro h n c l l' s t hnested hdecl hok ih hw hl hw'
    simp only [bind, Option.bind_eq_some_iff, Option.some.injEq, Prod.mk.injEq] at hw hw'
    obtain ⟨⟨la, s₁⟩, hwa, ⟨ln, s₂⟩, hwn, rfl, rfl⟩ := hw
    obtain ⟨⟨la', t₁⟩, hwa', ⟨ln', t₂⟩, hwn', rfl, rfl⟩ := hw'
    refine Clashes.first (leakWalk_clashes h hnested) hnested hok.toOk hwa hwa' hl ?_
    rintro c₁ rfl rfl hok₁ hm hl'
    rw [hdecl] at hm
    exact ih (hok.moves hn hok₁ hm) hwn hl' hwn'
  induction h with
  | nil => intro c l l' s t _ _ hl _; cases hl
  | leaf i op n ih =>
      intro c l l' s t hok hw hl hw'
      rw [walk_cons] at hw
      have hdecl : (Hir.leaf i op .nil).declared = [] := rfl
      exact statement (h := .leaf i op .nil) (n := n) rfl hdecl hok (ih hnested hplain hnodup) hw hl hw'
  | one i op a n _ ih =>
      intro c l l' s t hok hw hl hw'
      simp only [Hir.rootNested, List.append_eq_nil_iff] at hnested
      cases op with
      | function f names =>
          simp only [walk, walkTop, bind, Option.bind_eq_some_iff, Option.some.injEq, Prod.mk.injEq,
            Bool.false_eq_true, if_false] at hw hw'
          obtain ⟨⟨la, s₁⟩, hwa, ⟨ln, s₂⟩, hwn, rfl, rfl⟩ := hw
          obtain ⟨⟨la', t₁⟩, hwa', ⟨ln', t₂⟩, hwn', rfl, rfl⟩ := hw'
          simp only [leakTop, bind] at hl
          rw [← List.append_assoc, ← List.append_assoc]
          cases hla : leakWalk a (c.leaked.filter (· ∉ names)) with
          | none =>
              -- The name is hidden from the body.
              obtain ⟨c₁, hlex, hleaky, hleaked, hok₁, hm₁⟩ := hok.toOk.declareAll names
              rw [← hlex] at hwa
              rw [← hleaky] at hwa'
              rw [← hleaked] at hla
              have hclash := leakWalk_clashes a hnested.1 hok₁ hwa hla hwa'
              refine (hm₁.toNotes.clash hclash).append ?_
              rw [List.length_append, List.length_append, hm₁.length, walk_length hnested.1 hwa hwa']
          | some leaked =>
              obtain ⟨la'', c₁, hlex, heq, hok₁, hm⟩ := leakWalk_function hnested.1 hok.toOk hwa hla
              rw [hwa'] at heq
              cases heq
              rw [hla] at hl
              rw [← hlex] at hwn
              exact hm.toNotes.clash (ih hnested.2 hplain hnodup (hok.moves hn hok₁ hm) hwn hl hwn')
      | variableDecl x ty =>
          obtain ⟨hdecl, hplain⟩ := hplain
          obtain ⟨hx, hnodup⟩ := List.nodup_cons.mp hnodup
          simp only [walk, walkTop, bind, Option.bind_eq_some_iff, Option.some.injEq, Prod.mk.injEq] at hw hw'
          obtain ⟨⟨la, s₁⟩, hwa, ⟨ln, s₂⟩, hwn, rfl, rfl⟩ := hw
          obtain ⟨g, hg, ⟨la', t₁⟩, hwa', ⟨ln', t₂⟩, hwn', rfl, rfl⟩ := hw'
          refine Clashes.first (leakWalk_clashes a hnested.1) hnested.1 hok.toOk hwa hwa' hl ?_
          rintro c₁ rfl rfl hok₁ hm hl'
          rw [hdecl] at hm
          have hroot := hok.moves hn hok₁ hm
          rw [hn.lookup] at hg
          have hclash := ih hnested.2 hplain hnodup (hroot.declareRoot hn hx hg) hwn hl' hwn'
          exact (Tracking.notes_declareRoot c₁ x g).clash hclash
      | _ =>
          rw [walk_cons] at hw
          refine statement (n := n) ?_ hplain.1 hok (ih hnested.2 hplain.2 hnodup) hw hl hw'
          simp [Hir.nestedOccurrences, hnested.1]
  | two i op a b n _ _ ih =>
      intro c l l' s t hok hw hl hw'
      simp only [Hir.rootNested, List.append_eq_nil_iff] at hnested
      rw [walk_cons] at hw
      refine statement (n := n) ?_ hplain.1 hok (ih hnested.2.2 hplain.2 hnodup) hw hl hw'
      simp [Hir.nestedOccurrences, hnested.1, hnested.2.1]
  | ifNode i cond th e n _ _ _ ih =>
      intro c l l' s t hok hw hl hw'
      simp only [Hir.rootNested, List.append_eq_nil_iff] at hnested
      rw [walk_cons] at hw
      refine statement (n := n) ?_ hplain.1 hok (ih hnested.2.2.2 hplain.2 hnodup) hw hl hw'
      simp [Hir.nestedOccurrences, hnested.1, hnested.2.1, hnested.2.2.1]

end Root

/-! ## Numbers of the root's declarations -/

theorem Scope.declareAll_eq (xs : List String) : ∀ s : Scope, Scope.declareAll xs s =
    (xs.zipIdx s.next, ⟨(xs.zipIdx s.next).reverse ++ s.env, s.next + xs.length⟩) := by
  induction xs with
  | nil => intro s; rfl
  | cons x xs ih =>
      intro s
      simp only [Scope.declareAll, ih, Scope.declare, List.zipIdx_cons, List.reverse_cons, List.append_assoc,
        List.length_cons, List.singleton_append]
      congr 2
      omega

theorem lookup_eq_some_iff_mem {l : List (String × Nat)} (hl : (l.map Prod.fst).Nodup) {x : String} {k : Nat} :
    l.lookup x = some k ↔ (x, k) ∈ l := by
  induction l with
  | nil => simp
  | cons p l ih =>
      obtain ⟨y, j⟩ := p
      simp only [List.map_cons, List.nodup_cons] at hl
      by_cases hxy : x = y
      · subst hxy
        have hfree : ∀ k, (x, k) ∉ l := fun k hk => hl.1 (List.mem_map_of_mem (f := Prod.fst) hk)
        simp [List.lookup_cons_self, hfree, eq_comm]
      · have hxy' : (x == y) = false := by simpa using hxy
        simp [List.lookup_cons, hxy', ih hl.2, hxy]

theorem numbered_zipIdx {xs : List String} (hxs : xs.Nodup) :
    Numbered xs.length xs.zipIdx xs.zipIdx.reverse := by
  have hnames : (xs.zipIdx.map Prod.fst).Nodup := by
    rw [List.zipIdx_map_fst]
    exact hxs
  have hnames' : (xs.zipIdx.reverse.map Prod.fst).Nodup := by
    rw [List.map_reverse, List.nodup_reverse]
    exact hnames
  have hmem : ∀ {x g}, xs.zipIdx.reverse.lookup x = some g ↔ xs[g]? = some x := by
    intro x g
    rw [lookup_eq_some_iff_mem hnames', List.mem_reverse, List.mem_zipIdx_iff_getElem?]
  refine ⟨fun x => ?_, fun x g hg => ?_, fun x y g hx hy => ?_⟩
  · ext g
    rw [hmem, lookup_eq_some_iff_mem hnames, List.mem_zipIdx_iff_getElem?]
  · exact (List.getElem?_eq_some_iff.mp (hmem.mp hg)).1
  · rw [hmem] at hx hy
    rw [hx] at hy
    exact Option.some.inj hy

/-! ## Whole programs -/

/-- Every occurrence in `ir` has the storage key of the declaration it was scoped to: numbers of declarations
    and numbers of keys correspond one to one, and two occurrences share their key exactly if they share their
    declaration. -/
def BindsAsScoped (ir : Hir) (log : List (String × Nat)) : Prop :=
  ∃ id : Nat → Nat, (∀ p ∈ log, ∀ q ∈ log, id p.2 = id q.2 → p.2 = q.2) ∧
    ir.occurrences = log.map (fun p => symbolKey (id p.2) p.1) ∧
    ∀ i j, i < log.length → j < log.length → (ir.occurrences[i]? = ir.occurrences[j]? ↔ log[i]? = log[j]?)

/-- No name occurs that an unsafe block has hidden, and functions inside other statements hold no variables. -/
def keepsScopes : Hir → Bool
  | .one _ .program h _ => h.rootNested.isEmpty && (leakTop h []).isSome
  | _ => false

theorem bindsAsScoped_intro {ir : Hir} {log : List (String × Nat)} {id : Nat → Nat}
    (hinj : ∀ p ∈ log, ∀ q ∈ log, id p.2 = id q.2 → p.2 = q.2)
    (hkeys : ir.occurrences = log.map fun p => symbolKey (id p.2) p.1) : BindsAsScoped ir log := by
  refine ⟨id, hinj, hkeys, fun i j hi hj => ?_⟩
  rw [hkeys, List.getElem?_map, List.getElem?_map, List.getElem?_eq_getElem hi, List.getElem?_eq_getElem hj]
  simp only [Option.map_some, Option.some.injEq]
  constructor
  · intro h
    obtain ⟨hid, hname⟩ := symbolKey_injective h
    exact Prod.ext hname (hinj _ (List.getElem_mem hi) _ (List.getElem_mem hj) hid)
  · intro h
    rw [h]

/-- As many occurrences behind the resolver as before it, and those in nested functions as they were. -/
structure LeavesNested (before after nested : List String) : Prop where
  length : before.length = after.length
  nested : ∀ x ∈ nested, (x, x) ∈ before.zip after

namespace LeavesNested

variable {b b' a a' n n' : List String}

theorem nil : LeavesNested [] [] [] := ⟨rfl, by simp⟩

theorem append (h : LeavesNested b a n) (h' : LeavesNested b' a' n') :
    LeavesNested (b ++ b') (a ++ a') (n ++ n') := by
  refine ⟨by simp [h.length, h'.length], fun x hx => ?_⟩
  rw [List.zip_append h.length, List.mem_append]
  rcases List.mem_append.mp hx with hx | hx
  · exact .inl (h.nested x hx)
  · exact .inr (h'.nested x hx)

theorem renamed (b a : String) : LeavesNested [b] [a] [] := ⟨rfl, by simp⟩

theorem same (b : List String) : LeavesNested b b b := by
  refine ⟨rfl, fun x hx => ?_⟩
  rw [List.mem_iff_getElem?]
  obtain ⟨i, hi⟩ := List.mem_iff_getElem?.mp hx
  exact ⟨i, List.getElem?_zip_eq_some.mpr ⟨hi, hi⟩⟩

end LeavesNested

theorem resolverBindExpr_leavesNested (h : Hir) : ∀ {r : HirResolver} {p : Hir × HirResolver},
    resolverBindExpr h r = some p → LeavesNested h.occurrences p.1.occurrences h.nestedOccurrences := by
  induction h with
  | nil => intro r p hp; cases hp; exact .nil
  | leaf i op n hn =>
      intro r p hp
      cases op with
      | «variable» x =>
          simp only [resolverBindExpr, bind, Option.bind_eq_some_iff, Option.some.injEq] at hp
          obtain ⟨b, -, n', hn', rfl⟩ := hp
          exact (LeavesNested.renamed x b.storageKey).append (hn hn')
      | _ =>
          simp only [resolverBindExpr, bind, Option.bind_eq_some_iff, Option.some.injEq] at hp
          obtain ⟨n', hn', rfl⟩ := hp
          have := hn hn'
          exact this
  | one i op a n ha hn =>
      intro r p hp
      cases op with
      | variableDecl x t =>
          simp only [resolverBindExpr, bind, Option.bind_eq_some_iff, Option.some.injEq] at hp
          obtain ⟨a', ha', n', hn', rfl⟩ := hp
          exact (ha ha').append ((LeavesNested.renamed x _).append (hn hn'))
      | reassign x t =>
          simp only [resolverBindExpr, bind, Option.bind_eq_some_iff, Option.some.injEq] at hp
          obtain ⟨a', ha', b, -, n', hn', rfl⟩ := hp
          exact (ha ha').append ((LeavesNested.renamed x _).append (hn hn'))
      | function f names =>
          simp only [resolverBindExpr, bind, Option.bind_eq_some_iff, Option.some.injEq] at hp
          obtain ⟨n', hn', rfl⟩ := hp
          exact (LeavesNested.same names).append ((LeavesNested.same a.occurrences).append (hn hn'))
      | _ =>
          simp only [resolverBindExpr, bind, Option.bind_eq_some_iff, Option.some.injEq] at hp
          obtain ⟨a', ha', n', hn', rfl⟩ := hp
          exact (ha ha').append (hn hn')
  | two i op a b n ha hb hn =>
      intro r p hp
      cases op <;>
        (simp only [resolverBindExpr, bind, Option.bind_eq_some_iff, Option.some.injEq] at hp
         obtain ⟨a', ha', b', hb', n', hn', rfl⟩ := hp
         exact (ha ha').append ((hb hb').append (hn hn')))
  | ifNode i c t e n hc ht he hn =>
      intro r p hp
      simp only [resolverBindExpr, bind, Option.bind_eq_some_iff, Option.some.injEq] at hp
      obtain ⟨c', hc', t', ht', e', he', n', hn', rfl⟩ := hp
      exact (hc hc').append ((ht ht').append ((he he').append (hn hn')))

theorem declareNames_length (xs : List String) : ∀ r : HirResolver, (declareNames xs r).1.length = xs.length := by
  induction xs with
  | nil => intro r; rfl
  | cons x xs ih => intro r; simp [declareNames, ih]

theorem resolveTop_leavesNested {globals : List HirSymbol} (h : Hir) :
    ∀ {r : HirResolver} {p : Hir × HirResolver}, resolveTop globals h r = some p →
      LeavesNested h.occurrences p.1.occurrences h.rootNested := by
  have statement : ∀ {h n : Hir} {r : HirResolver} {p : Hir × HirResolver},
      (∀ {r : HirResolver} {p : Hir × HirResolver}, resolveTop globals n r = some p →
        LeavesNested n.occurrences p.1.occurrences n.rootNested) →
      (do let q ← resolverBindExpr h r; let q' ← resolveTop globals n q.2; some (q.1.append q'.1, q'.2)) = some p →
      LeavesNested (h.occurrences ++ n.occurrences) p.1.occurrences (h.nestedOccurrences ++ n.rootNested) := by
    intro h n r p ih hp
    simp only [bind, Option.bind_eq_some_iff, Option.some.injEq] at hp
    obtain ⟨q, hq, q', hq', rfl⟩ := hp
    rw [Hir.occurrences_append]
    exact (resolverBindExpr_leavesNested h hq).append (ih hq')
  induction h with
  | nil => intro r p hp; cases hp; exact .nil
  | leaf i op n ih =>
      intro r p hp
      have := statement (h := .leaf i op .nil) ih hp
      cases op <;> exact this
  | one i op a n _ ih =>
      intro r p hp
      cases op with
      | function f names =>
          simp only [resolveTop, bind, Option.bind_eq_some_iff, Option.some.injEq] at hp
          obtain ⟨a', ha', n', hn', rfl⟩ := hp
          have hnames : LeavesNested names (declareNames names { r with depth := 1 }).1 [] :=
            ⟨(declareNames_length names _).symm, by simp⟩
          exact hnames.append ((resolverBindExpr_leavesNested a ha').append (ih hn'))
      | variableDecl x t =>
          simp only [resolveTop, bind, Option.bind_eq_some_iff, Option.some.injEq] at hp
          obtain ⟨b, -, a', ha', n', hn', rfl⟩ := hp
          have hrest := (LeavesNested.renamed x b.storageKey).append (ih hn')
          exact (resolverBindExpr_leavesNested a ha').append hrest
      | _ =>
          have := statement ih hp
          simpa [Hir.nestedOccurrences, Hir.rootNested] using this
  | two i op a b n _ _ ih =>
      intro r p hp
      have := statement ih hp
      simpa [Hir.nestedOccurrences, Hir.rootNested] using this
  | ifNode i c t e n _ _ _ ih =>
      intro r p hp
      have := statement ih hp
      simpa [Hir.nestedOccurrences, Hir.rootNested] using this

theorem keyed_predeclare (h : Hir) :
    (predeclare h ⟨[], 0, 0⟩).Keyed (predeclared h) ∧ (predeclare h ⟨[], 0, 0⟩).depth = 0 :=
  predeclare_keyed h ⟨rfl, rfl, by simp⟩

/-- The two walks at the start of the program. -/
def startTracking (h : Hir) : Tracking where
  lexical := ⟨[], 0⟩
  leaky := predeclared h
  id := fun k => k
  leaked := []
  past := []

theorem startTracking_ok {h : Hir} (hnodup : h.rootDeclared.Nodup) :
    (startTracking h).RootOk h.rootDeclared.length (predeclared h).env h.rootDeclared := by
  have hfloor : (predeclared h).next = h.rootDeclared.length := by
    simp [predeclared, Scope.declareAll_eq]
  refine ⟨⟨by simp [startTracking], by simp [startTracking], by simp [startTracking], ?_, by simp [startTracking],
    by simp [startTracking], by simp [startTracking]⟩, ⟨[], rfl, by simp⟩, by simp [startTracking], ?_⟩
  · exact Nat.le_of_eq hfloor.symm
  · intro x hx
    refine ⟨by simp [startTracking], ?_⟩
    obtain ⟨g, hg⟩ := List.mem_iff_getElem?.mp hx
    refine ⟨g, ?_, by simp [startTracking]⟩
    have henv : (predeclared h).env = h.rootDeclared.zipIdx.reverse := by
      simp [predeclared, Scope.declareAll_eq]
    rw [henv, ← (numbered_zipIdx hnodup).lookup, lookup_eq_some_iff_mem (by rwa [List.zipIdx_map_fst]),
      List.mem_zipIdx_iff_getElem?]
    exact hg

/-- **The resolver binds as scoped exactly where nothing is hidden.** -/
theorem resolveHirSymbols_binds_iff {i : Nat} {h : Hir} {log : List (String × Nat)} {s : Scope}
    (hplain : h.rootPlain) (hnodup : h.rootDeclared.Nodup) (hwalk : walk false h ⟨[], 0⟩ = some (log, s)) :
    (∃ ir, resolveHirSymbols (.one i .program h .nil) = some ir ∧ BindsAsScoped ir log) ↔
      keepsScopes (.one i .program h .nil) = true := by
  obtain ⟨hkeyed, hdepth⟩ := keyed_predeclare h
  have hok := startTracking_ok hnodup
  have henv : (predeclared h).env = h.rootDeclared.zipIdx.reverse := by simp [predeclared, Scope.declareAll_eq]
  have hnum : Numbered h.rootDeclared.length h.rootDeclared.zipIdx (predeclared h).env :=
    henv ▸ numbered_zipIdx hnodup
  -- The table the second loop looks declarations up in.
  have hglobals : (predeclare h ⟨[], 0, 0⟩).symbols.reverse.map (fun b => (b.sourceName, b.storageKey)) =
      h.rootDeclared.zipIdx.map fun p => (p.1, noteKey p) := by
    rw [List.map_reverse, hkeyed.symbols, henv, List.map_reverse, List.reverse_reverse]
  have hstep : h.rootNested = [] → Option.Rel (Bound (predeclare h ⟨[], 0, 0⟩))
      (resolveTop (predeclare h ⟨[], 0, 0⟩).symbols.reverse h (predeclare h ⟨[], 0, 0⟩))
      (walkTop h.rootDeclared.zipIdx h (predeclared h)) :=
    fun hnested => resolveTop_walkTop hglobals h hnested hkeyed hdepth
  constructor
  · rintro ⟨ir, hres, id, hinj, hkeys, -⟩
    simp only [resolveHirSymbols, bind, Option.bind_eq_some_iff, Option.some.injEq] at hres
    obtain ⟨p, hp, rfl⟩ := hres
    have hkeys' : p.1.occurrences = log.map fun q => symbolKey (id q.2) q.1 := by
      simpa using hkeys
    have hnames : log.map Prod.fst = h.occurrences := walk_names h Bool.noConfusion hwalk
    -- A variable in a nested function would have kept its name.
    have hnested : h.rootNested = [] := by
      rw [List.eq_nil_iff_forall_not_mem]
      intro x hx
      have hmem := (resolveTop_leavesNested h hp).nested x hx
      rw [← hnames, hkeys', List.zip_map', List.mem_map] at hmem
      obtain ⟨q, -, hq⟩ := hmem
      simp only [Prod.mk.injEq] at hq
      exact symbolKey_ne_name (id q.2) q.1 (hq.2.trans hq.1.symm)
    have hrel := hstep hnested
    rw [hp] at hrel
    obtain ⟨⟨l', t⟩, hw', hbound⟩ : ∃ q, walkTop h.rootDeclared.zipIdx h (predeclared h) = some q ∧
        Bound (predeclare h ⟨[], 0, 0⟩) p q := by
      cases hq : walkTop h.rootDeclared.zipIdx h (predeclared h) with
      | none => rw [hq] at hrel; cases hrel
      | some q => rw [hq] at hrel; cases hrel; exact ⟨q, rfl, by assumption⟩
    have hleak : leakTop h [] ≠ none := by
      intro hnone
      obtain ⟨z, hz, z', hz', hsame, hdiff⟩ := leakTop_clash hnum h hnested hplain hnodup hok hwalk hnone hw'
      -- The keys give each declaration one number.
      have number : ∀ z ∈ log.zip l', z.2.2 = id z.1.2 := by
        intro z hz
        obtain ⟨n, hn⟩ := List.mem_iff_getElem?.mp hz
        obtain ⟨h₁, h₂⟩ := List.getElem?_zip_eq_some.mp hn
        have hkey : symbolKey z.2.2 z.2.1 = symbolKey (id z.1.2) z.1.1 := by
          have := congrArg (·[n]?) (hbound.keys.symm.trans hkeys')
          simpa [h₁, h₂, noteKey] using this
        exact (symbolKey_injective hkey).1
      refine hdiff ?_
      rw [number z hz, number z' hz', hsame]
    simp only [keepsScopes, hnested, List.isEmpty_nil, Bool.true_and, Option.isSome_iff_ne_none]
    exact hleak
  · intro hkeep
    simp only [keepsScopes, Bool.and_eq_true, List.isEmpty_iff] at hkeep
    obtain ⟨leaked, hleak⟩ := Option.isSome_iff_exists.mp hkeep.2
    obtain ⟨l', c', rfl, hw', hok', hnotes⟩ :=
      leakTop_follows hnum h hkeep.1 hplain hnodup hok hwalk hleak
    have hrel := hstep hkeep.1
    have hw'' : walkTop h.rootDeclared.zipIdx h (predeclared h) = some (l', c'.leaky) := hw'
    rw [hw''] at hrel
    obtain ⟨p, hp, hbound⟩ : ∃ p, resolveTop (predeclare h ⟨[], 0, 0⟩).symbols.reverse h
        (predeclare h ⟨[], 0, 0⟩) = some p ∧ Bound (predeclare h ⟨[], 0, 0⟩) p (l', c'.leaky) := by
      cases hq : resolveTop (predeclare h ⟨[], 0, 0⟩).symbols.reverse h (predeclare h ⟨[], 0, 0⟩) with
      | none => rw [hq] at hrel; cases hrel
      | some q => rw [hq] at hrel; cases hrel; exact ⟨q, rfl, by assumption⟩
    refine ⟨.one i .program p.1 .nil, by simp [resolveHirSymbols, hp], ?_⟩
    refine @bindsAsScoped_intro _ _ c'.id ?_ ?_
    · intro p hp q hq heq
      exact hok'.inj p.2 (hnotes.bounded p hp) q.2 (hnotes.bounded q hq) heq
    · have hkeys := hbound.keys
      simp only [hnotes.same, List.map_map] at hkeys
      simpa [noteKey, Function.comp_def] using hkeys

/-! ## Positions do not matter -/

theorem walk_number {leaky : Bool} (h : Hir) : ∀ k s, walk leaky (h.number k) s = walk leaky h s := by
  induction h with
  | nil => intro k s; rfl
  | leaf i op n hn => intro k s; cases op <;> simp [walk, hn]
  | one i op a n ha hn => intro k s; cases op <;> simp [walk, ha, hn]
  | two i op a b n ha hb hn => intro k s; cases op <;> simp [walk, ha, hb, hn]
  | ifNode i c t e n hc ht he hn => intro k s; simp [walk, hc, ht, he, hn]

theorem declared_number (h : Hir) : ∀ k, (h.number k).declared = h.declared := by
  induction h with
  | nil => intro k; rfl
  | leaf i op n hn => intro k; simp [Hir.declared, hn]
  | one i op a n ha hn => intro k; cases op <;> simp [Hir.declared, ha, hn]
  | two i op a b n ha hb hn => intro k; cases op <;> simp [Hir.declared, ha, hb, hn]
  | ifNode i c t e n hc ht he hn => intro k; simp [Hir.declared, hc, hn]

theorem rootDeclared_number (h : Hir) : ∀ k, (h.number k).rootDeclared = h.rootDeclared := by
  induction h with
  | nil => intro k; rfl
  | leaf i op n hn => intro k; simp [Hir.rootDeclared, hn]
  | one i op a n _ hn => intro k; cases op <;> simp [Hir.rootDeclared, hn]
  | two i op a b n _ _ hn => intro k; simp [Hir.rootDeclared, hn]
  | ifNode i c t e n _ _ _ hn => intro k; simp [Hir.rootDeclared, hn]

theorem rootPlain_number (h : Hir) : ∀ k, (h.number k).rootPlain ↔ h.rootPlain := by
  induction h with
  | nil => intro k; rfl
  | leaf i op n hn => intro k; simp [Hir.rootPlain, hn]
  | one i op a n _ hn =>
      intro k
      cases op <;> simp [Hir.rootPlain, Hir.declared, declared_number, hn]
  | two i op a b n _ _ hn =>
      intro k
      cases op <;> simp [Hir.rootPlain, Hir.declared, declared_number, hn]
  | ifNode i c t e n _ _ _ hn => intro k; simp [Hir.rootPlain, Hir.declared, declared_number, hn]

end Vnt
