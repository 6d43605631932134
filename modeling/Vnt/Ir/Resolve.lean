import Vnt.Ir.Scopes

/-!
# `Ir.Resolve` — the resolver is the leaky walk

The resolver cuts its stack back by depth, the walk by remembering the scope a block began in. Both are run in
lockstep: they fail together, and otherwise the keys the resolver writes are those of the numbers the walk notes.
-/

namespace Vnt

/-! ## Storage keys -/

theorem digitChar_injective {m n : Nat} (hm : m < 10) (hn : n < 10) (h : m.digitChar = n.digitChar) : m = n := by
  have h₁ := Nat.toNat_digitChar_of_lt_ten hm
  have h₂ := Nat.toNat_digitChar_of_lt_ten hn
  rw [h] at h₁
  omega

theorem toDigits_injective : ∀ {m n : Nat}, Nat.toDigits 10 m = Nat.toDigits 10 n → m = n := by
  intro m
  induction m using Nat.strongRecOn with
  | ind m ih =>
  intro n h
  have hm := Nat.toDigits_eq_if (n := m) (b := 10) (by decide)
  have hn := Nat.toDigits_eq_if (n := n) (b := 10) (by decide)
  rw [hm, hn] at h
  split at h <;> split at h
  · rename_i hm hn
    exact digitChar_injective hm hn (List.cons.inj h).1
  · have := congrArg List.length h
    simp at this
  · have := congrArg List.length h
    simp at this
  · rename_i hm hn
    obtain ⟨h₁, h₂⟩ := List.append_inj' h rfl
    have hd := digitChar_injective (Nat.mod_lt m (by decide)) (Nat.mod_lt n (by decide)) (List.cons.inj h₂).1
    have hq := ih (m / 10) (by omega) h₁
    omega

theorem symbolKey_toList (i : Nat) (x : String) :
    (symbolKey i x).toList = "__vnt_symbol_".toList ++ (Nat.toDigits 10 i ++ '_' :: x.toList) := by
  simp [symbolKey]

/-- A storage key names its number and its variable. -/
theorem symbolKey_injective {i j : Nat} {x y : String} (h : symbolKey i x = symbolKey j y) : i = j ∧ x = y := by
  have hl := congrArg String.toList h
  rw [symbolKey_toList, symbolKey_toList, List.append_cancel_left_eq] at hl
  -- The digits end at the first underscore.
  have split : ∀ {a b : List Char} {u v : List Char}, '_' ∉ a → '_' ∉ b → a ++ '_' :: u = b ++ '_' :: v →
      a = b ∧ u = v := by
    intro a
    induction a with
    | nil =>
        intro b u v _ hb h
        cases b with
        | nil => exact ⟨rfl, by simpa using h⟩
        | cons c b => simp at h; exact absurd (h.1 ▸ List.mem_cons_self) hb
    | cons c a ih =>
        intro b u v ha hb h
        cases b with
        | nil => simp at h; exact absurd (h.1 ▸ List.mem_cons_self) ha
        | cons d b =>
            simp only [List.cons_append, List.cons.injEq, List.mem_cons, not_or] at h ha hb
            obtain ⟨h₁, h₂⟩ := ih ha.2 hb.2 h.2
            exact ⟨by rw [h.1, h₁], h₂⟩
  obtain ⟨hd, hx⟩ := split Nat.underscore_not_in_toDigits Nat.underscore_not_in_toDigits hl
  exact ⟨toDigits_injective hd, String.toList_inj.mp hx⟩

theorem symbolKey_ne_name (i : Nat) (x : String) : symbolKey i x ≠ x := by
  intro h
  have hl := congrArg (fun key => key.toList.length) h
  simp only [symbolKey_toList, List.length_append, List.length_cons] at hl
  omega

/-! ## In lockstep -/

/-- Two fallible computations that fail together are followed by such. -/
theorem optionRel_bind {α β γ δ : Type} {R : α → β → Prop} {S : γ → δ → Prop} {x : Option α} {y : Option β}
    {f : α → Option γ} {g : β → Option δ} (h : Option.Rel R x y)
    (hf : ∀ a b, R a b → Option.Rel S (f a) (g b)) : Option.Rel S (x >>= f) (y >>= g) := by
  cases h with
  | none => exact .none
  | some hab => exact hf _ _ hab

theorem optionRel_map {α β γ : Type} {R : α → β → Prop} {S : γ → β → Prop} {x : Option α} {y : Option β}
    {f : α → γ} (h : Option.Rel R x y) (hf : ∀ a b, R a b → S (f a) b) :
    Option.Rel S (x >>= fun a => some (f a)) y := by
  cases h with
  | none => exact .none
  | some hab => exact .some (hf _ _ hab)

/-- The key written for a noted occurrence. -/
def noteKey (p : String × Nat) : String := symbolKey p.2 p.1

theorem find_lookup {symbols : List HirSymbol} {env : List (String × Nat)}
    (hs : symbols.map (fun b => (b.sourceName, b.storageKey)) = env.map fun p => (p.1, noteKey p)) (x : String) :
    Option.Rel (fun b k => b.storageKey = symbolKey k x) (symbols.find? fun b => b.sourceName == x)
      (env.lookup x) := by
  induction symbols generalizing env with
  | nil =>
      cases env with
      | nil => exact .none
      | cons p env => cases hs
  | cons b symbols ih =>
      cases env with
      | nil => cases hs
      | cons p env =>
          obtain ⟨y, j⟩ := p
          simp only [List.map_cons, List.cons.injEq, Prod.mk.injEq] at hs
          obtain ⟨⟨rfl, hkey⟩, hs⟩ := hs
          by_cases hx : b.sourceName = x
          · subst hx
            rw [List.find?_cons_of_pos (by simp), List.lookup_cons_self]
            exact .some hkey
          · have hx' : (x == b.sourceName) = false := by simpa using fun h => hx h.symm
            rw [List.find?_cons_of_neg (by simpa using hx), List.lookup_cons, hx']
            exact ih hs

/-- No symbol is deeper than the resolver is. -/
def HirResolver.Layered (r : HirResolver) : Prop := ∀ b ∈ r.symbols, b.depth ≤ r.depth

theorem HirResolver.Layered.declare {r : HirResolver} (h : r.Layered) (x : String) : (r.declare x).Layered := by
  intro b hb
  rcases List.mem_cons.mp hb with rfl | hb
  · exact Nat.le_refl _
  · exact h b hb

theorem HirResolver.Layered.enter {r : HirResolver} (h : r.Layered) : r.enter.Layered :=
  fun b hb => Nat.le_succ_of_le (h b hb)

/-- The resolver's stack holds the declarations of the scope, none deeper than the resolver is. -/
structure HirResolver.Keyed (r : HirResolver) (s : Scope) : Prop where
  symbols : r.symbols.map (fun b => (b.sourceName, b.storageKey)) = s.env.map fun p => (p.1, noteKey p)
  next : r.nextId = s.next
  depth : ∀ b ∈ r.symbols, b.depth ≤ r.depth

namespace HirResolver.Keyed

variable {r : HirResolver} {s : Scope}

theorem find (h : r.Keyed s) (x : String) :
    Option.Rel (fun b k => b.storageKey = symbolKey k x) (r.find x) (s.env.lookup x) := find_lookup h.symbols x

theorem declare (h : r.Keyed s) (x : String) : (r.declare x).Keyed (s.declare x) where
  symbols := by simp [HirResolver.declare, Scope.declare, noteKey, h.symbols, h.next]
  next := by simp [HirResolver.declare, Scope.declare, h.next]
  depth := HirResolver.Layered.declare h.depth x

theorem enter (h : r.Keyed s) : r.enter.Keyed s where
  symbols := h.symbols
  next := h.next
  depth := HirResolver.Layered.enter h.depth

end HirResolver.Keyed

/-- `r'` has the stack of `r` under what was pushed at its depth or deeper. -/
structure HirResolver.Pushed (r r' : HirResolver) : Prop where
  depth : r'.depth = r.depth
  symbols : ∃ new, r'.symbols = new ++ r.symbols ∧ ∀ b ∈ new, r.depth ≤ b.depth

namespace HirResolver.Pushed

variable {r r' r'' : HirResolver}

theorem refl (r : HirResolver) : r.Pushed r := ⟨rfl, [], rfl, by simp⟩

theorem declare (r : HirResolver) (x : String) : r.Pushed (r.declare x) :=
  ⟨rfl, [⟨x, symbolKey r.nextId x, r.depth⟩], rfl, by simp⟩

theorem trans (h : r.Pushed r') (h' : r'.Pushed r'') : r.Pushed r'' := by
  obtain ⟨hd, new, hs, hnew⟩ := h
  obtain ⟨hd', new', hs', hnew'⟩ := h'
  refine ⟨by rw [hd', hd], new' ++ new, by rw [hs', hs, List.append_assoc], ?_⟩
  intro b hb
  rcases List.mem_append.mp hb with hb | hb
  · exact hd ▸ hnew' b hb
  · exact hnew b hb

/-- Cutting back by depth removes exactly what was pushed inside. -/
theorem pop_symbols (h : r.enter.Pushed r') (hr : r.Layered) :
    r'.pop.symbols = r.symbols := by
  obtain ⟨hd, new, hs, hnew⟩ := h
  have hd' : r'.depth = r.depth + 1 := hd
  have hs' : r'.symbols = new ++ r.symbols := hs
  simp only [HirResolver.pop, hs']
  rw [List.dropWhile_append_of_pos]
  · cases hsym : r.symbols with
    | nil => rfl
    | cons b rest =>
        have hdeep : b.depth ≤ r.depth := hr b (by simp [hsym])
        rw [List.dropWhile_cons_of_neg]
        simp only [hd', ge_iff_le, decide_eq_true_eq]
        omega
  · intro b hb
    have hb' : r.depth + 1 ≤ b.depth := hnew b hb
    simpa [hd'] using hb'

/-- The end of a function: everything pushed since it began is dropped. -/
theorem drop_symbols (h : r.enter.Pushed r') :
    r'.symbols.drop (r'.symbols.length - r.symbols.length) = r.symbols := by
  obtain ⟨-, new, hsymbols, -⟩ := h
  have hs : r'.symbols = new ++ r.symbols := hsymbols
  simp [hs]

end HirResolver.Pushed

theorem HirResolver.Layered.leave {r r' : HirResolver} (h : r.Layered) (hp : r.enter.Pushed r') :
    (r.leave r').Layered := by
  intro b hb
  have hb' : b ∈ r'.pop.symbols := hb
  rw [hp.pop_symbols h] at hb'
  exact h b hb'

theorem HirResolver.Layered.pop {r r' : HirResolver} (h : r.Layered) (hp : r.enter.Pushed r') : r'.pop.Layered := by
  intro b hb
  rw [hp.pop_symbols h] at hb
  have hdepth : r'.pop.depth = r.depth + 1 := hp.depth
  rw [hdepth]
  exact Nat.le_succ_of_le (h b hb)

/-- What the resolver returns, next to what the walk returns. -/
structure Bound (r : HirResolver) (p : Hir × HirResolver) (q : List (String × Nat) × Scope) : Prop where
  keyed : p.2.Keyed q.2
  pushed : r.Pushed p.2
  keys : p.1.occurrences = q.1.map noteKey

/-- Leaving a block: the stack is that of its beginning, the numbers go on. -/
theorem HirResolver.Keyed.leave {r r' : HirResolver} {s s' : Scope} (h : r.Keyed s) (h' : r'.Keyed s')
    (hp : r.enter.Pushed r') : (r.leave r').Keyed (s.leave s') where
  symbols := by
    show r'.pop.symbols.map _ = s.env.map _
    rw [hp.pop_symbols h.depth]
    exact h.symbols
  next := h'.next
  depth := HirResolver.Layered.leave h.depth hp

theorem HirResolver.Pushed.leave {r r' : HirResolver} (hp : r.enter.Pushed r') (hr : r.Layered) : r.Pushed (r.leave r') :=
  ⟨rfl, [], hp.pop_symbols hr, by simp⟩

/-- Between the two arms the stack is cut back and the depth kept. -/
theorem HirResolver.Keyed.pop {r r' : HirResolver} {s s' : Scope} (h : r.Keyed s) (h' : r'.Keyed s')
    (hp : r.enter.Pushed r') : r'.pop.Keyed (s.leave s') where
  symbols := by
    rw [hp.pop_symbols h.depth]
    exact h.symbols
  next := h'.next
  depth := HirResolver.Layered.pop h.depth hp

theorem HirResolver.Pushed.pop {r r' : HirResolver} (hp : r.enter.Pushed r') (hr : r.Layered) : r.enter.Pushed r'.pop :=
  ⟨hp.depth, [], hp.pop_symbols hr, by simp⟩

/-- **`resolver_bind_expr` is the leaky walk**, on chains without variables in nested functions. -/
theorem resolverBindExpr_walk (h : Hir) (hnested : h.nestedOccurrences = []) : ∀ {r : HirResolver} {s : Scope},
    r.Keyed s → Option.Rel (Bound r) (resolverBindExpr h r) (walk true h s) := by
  induction h with
  | nil => intro r s hk; exact .some ⟨hk, .refl r, rfl⟩
  | leaf i op n hn =>
      intro r s hk
      cases op with
      | «variable» x =>
          refine optionRel_bind (hk.find x) fun b k hb => ?_
          refine optionRel_bind (hn hnested hk) fun p q hpq => .some ⟨hpq.keyed, hpq.pushed, ?_⟩
          simp [hpq.keys, hb, noteKey]
      | _ => exact optionRel_map (hn hnested hk) fun p q hpq => ⟨hpq.keyed, hpq.pushed, hpq.keys⟩
  | one i op a n ha hn =>
      intro r s hk
      cases op with
      | variableDecl x t =>
          simp only [Hir.nestedOccurrences, List.append_eq_nil_iff] at hnested
          refine optionRel_bind (ha hnested.1 hk) fun p q hpq => ?_
          refine optionRel_bind (hn hnested.2 (hpq.keyed.declare x)) fun p' q' hpq' => .some ⟨hpq'.keyed, ?_, ?_⟩
          · exact (hpq.pushed.trans (.declare _ x)).trans hpq'.pushed
          · simp [hpq.keys, hpq'.keys, noteKey, hpq.keyed.next]
      | reassign x t =>
          simp only [Hir.nestedOccurrences, List.append_eq_nil_iff] at hnested
          refine optionRel_bind (ha hnested.1 hk) fun p q hpq => ?_
          refine optionRel_bind (hpq.keyed.find x) fun b k hb => ?_
          refine optionRel_bind (hn hnested.2 hpq.keyed) fun p' q' hpq' => .some ⟨hpq'.keyed, ?_, ?_⟩
          · exact hpq.pushed.trans hpq'.pushed
          · simp [hpq.keys, hpq'.keys, noteKey, hb]
      | function f names =>
          -- Passed over on both sides, and it holds no variable.
          simp only [Hir.nestedOccurrences, List.append_eq_nil_iff] at hnested
          obtain ⟨rfl, hbody, hrest⟩ := hnested
          refine optionRel_map (hn hrest hk) fun p q hpq => ⟨hpq.keyed, hpq.pushed, ?_⟩
          simp [hbody, hpq.keys]
      | _ =>
          simp only [Hir.nestedOccurrences, List.append_eq_nil_iff] at hnested
          refine optionRel_bind (ha hnested.1 hk) fun p q hpq => ?_
          refine optionRel_bind (hn hnested.2 hpq.keyed) fun p' q' hpq' => .some ⟨hpq'.keyed, ?_, ?_⟩
          · exact hpq.pushed.trans hpq'.pushed
          · simp [hpq.keys, hpq'.keys]
  | two i op a b n ha hb hn =>
      intro r s hk
      simp only [Hir.nestedOccurrences, List.append_eq_nil_iff] at hnested
      obtain ⟨hna, hnb, hnn⟩ := hnested
      cases op with
      | whileNode =>
          refine optionRel_bind (ha hna hk) fun p q hpq => ?_
          refine optionRel_bind (hb hnb hpq.keyed.enter) fun p' q' hpq' => ?_
          have hk' := hpq.keyed.leave hpq'.keyed hpq'.pushed
          refine optionRel_bind (hn hnn hk') fun p'' q'' hpq'' => .some ⟨hpq''.keyed, ?_, ?_⟩
          · exact (hpq.pushed.trans (hpq'.pushed.leave hpq.keyed.depth)).trans hpq''.pushed
          · simp [hpq.keys, hpq'.keys, hpq''.keys]
      | _ =>
          refine optionRel_bind (ha hna hk) fun p q hpq => ?_
          refine optionRel_bind (hb hnb hpq.keyed) fun p' q' hpq' => ?_
          refine optionRel_bind (hn hnn hpq'.keyed) fun p'' q'' hpq'' => .some ⟨hpq''.keyed, ?_, ?_⟩
          · exact (hpq.pushed.trans hpq'.pushed).trans hpq''.pushed
          · simp [hpq.keys, hpq'.keys, hpq''.keys]
  | ifNode i c t e n hc ht he hn =>
      intro r s hk
      simp only [Hir.nestedOccurrences, List.append_eq_nil_iff] at hnested
      obtain ⟨hnc, hnt, hne, hnn⟩ := hnested
      refine optionRel_bind (hc hnc hk) fun p q hpq => ?_
      refine optionRel_bind (ht hnt hpq.keyed.enter) fun pt qt hpt => ?_
      have hkt := hpq.keyed.pop hpt.keyed hpt.pushed
      refine optionRel_bind (he hne hkt) fun pe qe hpe => ?_
      -- The second arm starts from the stack the first one started from.
      have hpushed := (hpt.pushed.pop hpq.keyed.depth).trans hpe.pushed
      have hk' := hpq.keyed.leave hpe.keyed hpushed
      refine optionRel_bind (hn hnn hk') fun p' q' hpq' => .some ⟨hpq'.keyed, ?_, ?_⟩
      · exact (hpq.pushed.trans (hpushed.leave hpq.keyed.depth)).trans hpq'.pushed
      · simp [hpq.keys, hpt.keys, hpe.keys, hpq'.keys]

/-! ## The root -/

theorem declareNames_declareAll (xs : List String) : ∀ {r : HirResolver} {s : Scope}, r.Keyed s →
    (declareNames xs r).2.Keyed (Scope.declareAll xs s).2 ∧ r.Pushed (declareNames xs r).2 ∧
      (declareNames xs r).1 = (Scope.declareAll xs s).1.map noteKey := by
  induction xs with
  | nil => intro r s hk; exact ⟨hk, .refl r, rfl⟩
  | cons x xs ih =>
      intro r s hk
      obtain ⟨hk', hp, hkeys⟩ := ih (hk.declare x)
      refine ⟨hk', (HirResolver.Pushed.declare r x).trans hp, ?_⟩
      simp [declareNames, Scope.declareAll, hkeys, noteKey, hk.next]

theorem predeclare_keyed (h : Hir) : ∀ {r : HirResolver} {s : Scope}, r.Keyed s →
    (predeclare h r).Keyed (Scope.declareAll h.rootDeclared s).2 ∧ (predeclare h r).depth = r.depth := by
  induction h with
  | nil => exact fun hk => ⟨hk, rfl⟩
  | leaf i op n hn => exact fun hk => hn hk
  | one i op a n _ hn =>
      cases op with
      | variableDecl x t => exact fun hk => hn (hk.declare x)
      | _ => exact fun hk => hn hk
  | two i op a b n _ _ hn => exact fun hk => hn hk
  | ifNode i c t e n _ _ _ hn => exact fun hk => hn hk

theorem Hir.occurrences_append (h h' : Hir) : (h.append h').occurrences = h.occurrences ++ h'.occurrences := by
  induction h with
  | nil => rfl
  | leaf i op n hn => cases op <;> simp [hn]
  | one i op a n _ hn => cases op <;> simp [hn]
  | two i op a b n _ _ hn => simp [hn]
  | ifNode i c t e n _ _ _ hn => simp [hn]

/-- **The loop of `resolve_hir_symbols` over the root's children is the leaky walk over them.** -/
theorem resolveTop_walkTop {globals : List HirSymbol} {gl : List (String × Nat)}
    (hgl : globals.map (fun b => (b.sourceName, b.storageKey)) = gl.map fun p => (p.1, noteKey p)) (h : Hir)
    (hnested : h.rootNested = []) : ∀ {r : HirResolver} {s : Scope}, r.Keyed s → r.depth = 0 →
      Option.Rel (Bound r) (resolveTop globals h r) (walkTop gl h s) := by
  -- A statement other than a function or a declaration, and the rest.
  have statement : ∀ {h n : Hir} {r : HirResolver} {s : Scope}, h.nestedOccurrences = [] → r.Keyed s →
      r.depth = 0 →
      (∀ {r : HirResolver} {s : Scope}, r.Keyed s → r.depth = 0 →
        Option.Rel (Bound r) (resolveTop globals n r) (walkTop gl n s)) →
      Option.Rel (Bound r)
        (do let p ← resolverBindExpr h r; let p' ← resolveTop globals n p.2; some (p.1.append p'.1, p'.2))
        (do let q ← walk true h s; let q' ← walkTop gl n q.2; some (q.1 ++ q'.1, q'.2)) := by
    intro h n r s hnested hk hd hn
    refine optionRel_bind (resolverBindExpr_walk h hnested hk) fun p q hpq => ?_
    have hd' : p.2.depth = 0 := by rw [hpq.pushed.depth, hd]
    refine optionRel_bind (hn hpq.keyed hd') fun p' q' hpq' => .some ⟨hpq'.keyed, ?_, ?_⟩
    · exact hpq.pushed.trans hpq'.pushed
    · simp [Hir.occurrences_append, hpq.keys, hpq'.keys]
  induction h with
  | nil => intro r s hk _; exact .some ⟨hk, .refl r, rfl⟩
  | leaf i op n hn => intro r s hk hd; exact statement rfl hk hd (hn hnested)
  | one i op a n _ hn =>
      intro r s hk hd
      simp only [Hir.rootNested, List.append_eq_nil_iff] at hnested
      cases op with
      | function f names =>
          have henter : ({ r with depth := 1 } : HirResolver) = r.enter := by simp [HirResolver.enter, hd]
          obtain ⟨hkp, hpp, hkeys⟩ := declareNames_declareAll names hk.enter
          simp only [resolveTop, walkTop, henter]
          refine optionRel_bind (resolverBindExpr_walk a hnested.1 hkp) fun p q hpq => ?_
          have hbase := (hpp.trans hpq.pushed).drop_symbols
          have hk' : ({ p.2 with
              symbols := p.2.symbols.drop (p.2.symbols.length - r.symbols.length), depth := 0 } :
              HirResolver).Keyed (s.leave q.2) := by
            refine ⟨?_, hpq.keyed.next, ?_⟩
            · simp only [hbase]
              exact hk.symbols
            · simp only [hbase]
              exact fun b hb => hd ▸ hk.depth b hb
          refine optionRel_bind (hn hnested.2 hk' rfl) fun p' q' hpq' => .some ⟨hpq'.keyed, ?_, ?_⟩
          · refine HirResolver.Pushed.trans ⟨hd.symm, [], ?_, by simp⟩ hpq'.pushed
            simp only [hbase, List.nil_append]
          · simp [hpq.keys, hpq'.keys, hkeys]
      | variableDecl x t =>
          refine optionRel_bind (find_lookup hgl x) fun b g hb => ?_
          refine optionRel_bind (resolverBindExpr_walk a hnested.1 hk) fun p q hpq => ?_
          have hd' : p.2.depth = 0 := by rw [hpq.pushed.depth, hd]
          refine optionRel_bind (hn hnested.2 hpq.keyed hd') fun p' q' hpq' => .some ⟨hpq'.keyed, ?_, ?_⟩
          · exact hpq.pushed.trans hpq'.pushed
          · simp [hpq.keys, hpq'.keys, noteKey, hb]
      | _ => exact statement (by simp [Hir.nestedOccurrences, hnested.1]) hk hd (hn hnested.2)
  | two i op a b n _ _ hn =>
      intro r s hk hd
      simp only [Hir.rootNested, List.append_eq_nil_iff] at hnested
      exact statement (by simp [Hir.nestedOccurrences, hnested.1, hnested.2.1]) hk hd (hn hnested.2.2)
  | ifNode i c t e n _ _ _ hn =>
      intro r s hk hd
      simp only [Hir.rootNested, List.append_eq_nil_iff] at hnested
      exact statement (by simp [Hir.nestedOccurrences, hnested.1, hnested.2.1, hnested.2.2.1]) hk hd
        (hn hnested.2.2.2)

end Vnt
