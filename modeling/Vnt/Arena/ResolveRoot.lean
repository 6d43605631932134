import Vnt.Arena.ResolveSpells
import Vnt.Ir.Total

/-!
# `Arena.ResolveRoot` — `resolve_hir_symbols` on the array

Two loops over the children of the root: the first declares the globals and only reads, the second resolves one child
after the other, with the declarations of a function dropped behind it. Both follow the tree's.
-/

namespace Vnt.Arena

variable {nodes nodes' : List VntIrNode} {role : VntIrEdgeRole} {h g n : Hir} {e : Option Nat}
  {globals : List HirSymbol}

/-! ## The globals -/

/-- **The first loop declares the variables that are declared at the root.** -/
theorem predeclareFrom_spells (h : Hir) : ∀ {fuel : Nat} {r : HirResolver}, Spells nodes role h none →
    h.length ≤ fuel → predeclareFrom nodes fuel (start h none) r = .ok (predeclare h r) := by
  -- A node that declares nothing, and the rest.
  have other : ∀ {i : Nat} {node : VntIrNode} (n : Hir) {fuel : Nat} {r : HirResolver}, nodes[i]? = some node →
      node.opcode ≠ some .variableDecl → node.nextSibling = start n none → n.length + 1 ≤ fuel →
      (∀ {fuel : Nat} {r : HirResolver}, n.length ≤ fuel →
        predeclareFrom nodes fuel (start n none) r = .ok (predeclare n r)) →
      predeclareFrom nodes fuel (some i) r = .ok (predeclare n r) := by
    intro i node n fuel r hi hop hnext hf ih
    obtain ⟨f, rfl⟩ : ∃ f, fuel = f + 1 := ⟨fuel - 1, by omega⟩
    rw [predeclareFrom, access_eq_ok.mpr hi]
    show (if node.opcode = some .variableDecl then _ else _) = _
    rw [if_neg hop, hnext]
    exact ih (Nat.le_of_succ_le_succ hf)
  induction h with
  | nil =>
      intro fuel r _ _
      cases fuel <;> rfl
  | leaf i op n hn =>
      intro fuel r hs hf
      refine other n hs.1 ?_ rfl hf fun hf => hn hs.2 hf
      cases op <;> intro hop <;> cases hop
  | one i op a n _ hn =>
      intro fuel r hs hf
      cases op with
      | variableDecl x t =>
          obtain ⟨f, rfl⟩ : ∃ f, fuel = f + 1 := ⟨fuel - 1, by simp only [Hir.length] at hf; omega⟩
          show predeclareFrom nodes (f + 1) (some i) r = _
          rw [predeclareFrom, access_eq_ok.mpr hs.1]
          exact hn hs.2.2 (Nat.le_of_succ_le_succ hf)
      | _ => exact other n hs.1 (by intro hop; cases hop) rfl hf fun hf => hn hs.2.2 hf
  | two i op a b n _ _ hn =>
      intro fuel r hs hf
      refine other n hs.1 ?_ rfl hf fun hf => hn hs.2.2.2 hf
      cases op <;> intro hop <;> cases hop
  | ifNode i c t e' n _ _ _ hn =>
      intro fuel r hs hf
      exact other n hs.1 (by intro hop; cases hop) rfl hf fun hf => hn hs.2.2.2.2 hf

/-! ## Parameters -/

theorem declareParameterNames_map (xs : List String) : ∀ r : HirResolver,
    declareParameterNames (xs.map some) r = .ok ((declareNames xs r).1.map some, (declareNames xs r).2) := by
  induction xs with
  | nil => exact fun r => rfl
  | cons x xs ih =>
      intro r
      rw [List.map_cons, declareParameterNames, ih]
      rfl

theorem copyNames_ne_nil {names : List String} (h : names.length ≠ 0) : copyNames names = some (names.map some) := by
  rw [copyNames, if_neg h]

theorem withNames_placed {f : String} {names keys : List String} (hlen : keys.length = names.length) (cs : List Nat) :
    ((onePayload (.function f names)).placed role cs e).withNames (keys.map some) =
      (onePayload (.function f keys)).placed role cs e := by
  have hnames : (copyNames names).map (fun old => keys.map some ++ old.drop (keys.map some).length) =
      copyNames keys := by
    by_cases hne : names.length = 0
    · simp [copyNames, hne, hlen]
    · rw [copyNames_ne_nil hne, copyNames_ne_nil (by omega), Option.map_some, List.length_map, hlen]
      simp
  simp only [VntIrNode.withNames, VntIrNode.placed, onePayload, payloadNode, hnames, hlen]

/-- A function of the root on the names it was lowered with. -/
theorem resolveFunction_placed {fuel c : Nat} {f : String} {names : List String} {cs : List Nat} {s : Binding}
    (hat : s.nodes[c]? = some ((onePayload (.function f names)).placed role cs e)) :
    resolveFunction fuel c s =
      andThen (resolverBindRole fuel .body c ⟨s.nodes.set c
          ((onePayload (.function f (declareNames names { s.resolver with depth := 1 }).1)).placed role cs e),
          (declareNames names { s.resolver with depth := 1 }).2⟩) fun inner =>
        pure (some { inner with resolver := { inner.resolver with
          symbols := inner.resolver.symbols.drop (inner.resolver.symbols.length - s.resolver.symbols.length)
          depth := 0 } }) := by
  have hkeys := @withNames_placed role e f names (declareNames names { s.resolver with depth := 1 }).1
    (declareNames_length names _) cs
  rw [resolveFunction, access_eq_ok.mpr hat, ← hkeys]
  cases names with
  | nil => rfl
  | cons x xs =>
      have htake : ((x :: xs).map some).take (xs.length + 1) = (x :: xs).map some :=
        List.take_of_length_le (Nat.le_of_eq (List.length_map some))
      show (declareParameterNames (((x :: xs).map some).take (xs.length + 1)) _ >>= _) = _
      rw [htake, declareParameterNames_map]
      rfl

/-! ## One round -/

/-- What the second loop does with a child of the root. -/
def rootRound (globalCount fuel c : Nat) (node : VntIrNode) (s : Binding) : Run (Option Binding) :=
  match node.opcode with
  | some .function => resolveFunction fuel c s
  | some .variableDecl => resolveGlobal fuel globalCount c s
  | _ => resolverBindExpr fuel (some c) s

theorem resolveFrom_some {globalCount fuel c : Nat} {node : VntIrNode} {s : Binding} (hat : s.nodes[c]? = some node) :
    resolveFrom globalCount (fuel + 1) (some c) s = andThen (rootRound globalCount fuel c node s) (fun s => do
      let node ← access s.nodes c
      resolveFrom globalCount fuel node.nextSibling s) := by
  rw [resolveFrom, access_eq_ok.mpr hat]
  rfl

/-- Enough fuel for the round of a single child. -/
def RoundFollows (globals : List HirSymbol) (g : Hir) : Prop := ∀ (fuel : Nat) (nodes : List VntIrNode)
  (r : HirResolver) (e : Option Nat) (p : Hir × HirResolver), Resolvable nodes .statement g e → 3 * g.size ≤ fuel →
    AtRoot globals r → resolveTop globals g r = some p → ∃ c node, (∀ e', start g e' = some c) ∧
      nodes[c]? = some node ∧ Follows nodes .statement g e p (rootRound globals.length fuel c node ⟨nodes, r⟩)

theorem kept_set {i : Nat} {node : VntIrNode} {ps : List Nat} (hmem : i ∈ ps) :
    Kept nodes (nodes.set i node) ps where
  length := List.length_set
  frame := fun _ hj => getElem?_set_ne' fun he => hj (he ▸ hmem)

theorem roundFollows_function {i : Nat} {f : String} {names : List String} {a : Hir} :
    RoundFollows globals (.one i (.function f names) a .nil) := by
  intro fuel nodes r e p hres hfuel _ hp
  obtain ⟨keys, r₁, hdeclare⟩ : ∃ keys r₁, declareNames names { r with depth := 1 } = (keys, r₁) := ⟨_, _, rfl⟩
  have hlength : keys.length = names.length := by
    rw [← declareNames_length names { r with depth := 1 }, hdeclare]
  simp only [resolveTop, hdeclare, bind, Option.bind_eq_some_iff, Option.some.injEq] at hp
  obtain ⟨q, hq, _, rfl, rfl⟩ := hp
  refine ⟨i, _, fun _ => rfl, hres.spells.1, ?_⟩
  -- the body is resolved in an array that has the keys of the parameters
  have hkept : Kept nodes (nodes.set i ((onePayload (.function f keys)).placed .statement (siblings a) e)) [i] :=
    kept_set (List.mem_singleton.mpr rfl)
  have hres' : Resolvable (nodes.set i ((onePayload (.function f keys)).placed .statement (siblings a) e)) .statement
      (.one i (.function f keys) a .nil) e := by
    refine ⟨⟨getElem?_set_self' hres.spells.1, hkept.spells hres.spells.2.1 ?_, trivial⟩, hres.nodup, hres.shape⟩
    intro j hj hji
    rw [List.mem_singleton.mp hji] at hj
    exact hres.oneReady.not_below hj
  simp only [Hir.size] at hfuel
  have hless : 3 * a.size + 1 < fuel := by omega
  obtain ⟨nodes', hrun, hk, hs⟩ := hres'.oneReady.bindRole (binds a).role hless hq
  refine ⟨nodes', ?_, ?_, hs⟩
  · show resolveFunction fuel i ⟨nodes, r⟩ = _
    rw [resolveFunction_placed hres.spells.1]
    simp only [hdeclare]
    exact andThen_ok hrun _
  · refine (hkept.trans hk).mono ?_
    exact List.cons_subset.mpr ⟨List.mem_cons_self, List.Subset.refl _⟩

theorem roundFollows_variableDecl {i : Nat} {x : String} {t : Option String} {a : Hir} :
    RoundFollows globals (.one i (.variableDecl x t) a .nil) := by
  intro fuel nodes r e p hres hfuel hroot hp
  simp only [resolveTop, bind, Option.bind_eq_some_iff, Option.some.injEq] at hp
  obtain ⟨global, hfind, q, hq, _, rfl, rfl⟩ := hp
  refine ⟨i, _, fun _ => rfl, hres.spells.1, ?_⟩
  have hkept : Kept nodes (nodes.set i
      ((onePayload (.variableDecl global.storageKey t)).placed .statement (siblings a) e)) [i] :=
    kept_set (List.mem_singleton.mpr rfl)
  have hres' : Resolvable (nodes.set i
      ((onePayload (.variableDecl global.storageKey t)).placed .statement (siblings a) e)) .statement
      (.one i (.variableDecl global.storageKey t) a .nil) e := by
    refine ⟨⟨getElem?_set_self' hres.spells.1, hkept.spells hres.spells.2.1 ?_, trivial⟩, hres.nodup, hres.shape⟩
    intro j hj hji
    rw [List.mem_singleton.mp hji] at hj
    exact hres.oneReady.not_below hj
  have hshape := hres.shape
  simp only [Vnt.validateNodeShape, Bool.and_eq_true] at hshape
  simp only [Hir.size] at hfuel
  have hless : 3 * a.size < fuel := by omega
  obtain ⟨nodes', hrun, hk, hs⟩ := hres'.oneReady.bindChild ((binds a).node (of_decide_eq_true hshape.1.1)) hless hq
  refine ⟨nodes', ?_, ?_, hs⟩
  · show resolveGlobal fuel globals.length i ⟨nodes, r⟩ = _
    have hfound : (r.symbols.reverse.take globals.length).find? (fun s => s.sourceName == x) = some global := by
      rw [← List.prefix_iff_eq_take.mp hroot.globals, hfind]
    have htext : textOf ((onePayload (.variableDecl x t)).placed .statement (siblings a) (start .nil e)) = .ok x := rfl
    rw [resolveGlobal, access_eq_ok.mpr hres.spells.1]
    simp only [bind, Except.bind, htext, hfound]
    refine (andThen_ok ?_ _).trans hrun
    show (access nodes i >>= _) = _
    rw [access_eq_ok.mpr hres.spells.1]
    rfl
  · refine (hkept.trans hk).mono ?_
    exact List.cons_subset.mpr ⟨List.mem_cons_self, List.Subset.refl _⟩

/-- Every other child is resolved as inside a block. -/
theorem roundFollows_other (hg : g.length = 1) (hop : ∀ {nodes : List VntIrNode} {e : Option Nat},
      Spells nodes .statement g e → ∃ c node, (∀ e', start g e' = some c) ∧ nodes[c]? = some node ∧
        node.opcode ≠ some .function ∧ node.opcode ≠ some .variableDecl)
    (htop : ∀ r, resolveTop globals g r = Vnt.resolverBindExpr g r) : RoundFollows globals g := by
  intro fuel nodes r e p hres hfuel _ hp
  obtain ⟨c, node, hstart, hat, hfunction, hdecl⟩ := hop hres.spells
  rw [htop] at hp
  refine ⟨c, node, hstart, hat, ?_⟩
  have hrun := (binds g).node (Nat.le_of_eq hg) fuel nodes r .statement e p hres hfuel hp
  rw [hstart] at hrun
  unfold rootRound
  split
  · exact absurd ‹_› hfunction
  · exact absurd ‹_› hdecl
  · exact hrun

/-! ## The second loop -/

theorem append_assoc (h h' h'' : Hir) : (h.append h').append h'' = h.append (h'.append h'') := by
  induction h <;> simp_all [Hir.append]

theorem resolveTop_append (globals : List HirSymbol) (g n : Hir) (r : HirResolver) :
    resolveTop globals (g.append n) r = (do
      let p ← resolveTop globals g r
      let q ← resolveTop globals n p.2
      some (p.1.append q.1, q.2)) := by
  induction g generalizing r with
  | nil => simp [resolveTop]
  | leaf i op n hn => simp [resolveTop, hn, Option.bind_assoc, append_assoc]
  | one i op a n _ hn => cases op <;> simp [resolveTop, hn, Option.bind_assoc]
  | two i op a b n _ _ hn => simp [resolveTop, hn, Option.bind_assoc, append_assoc]
  | ifNode i c t e n _ _ _ hn => simp [resolveTop, hn, Option.bind_assoc]

/-- The loop from the chain on. -/
def RootFollows (globals : List HirSymbol) (h : Hir) : Prop := ∀ (fuel : Nat) (nodes : List VntIrNode)
  (r : HirResolver) (p : Hir × HirResolver), Resolvable nodes .statement h none → 3 * h.size < fuel →
    AtRoot globals r → resolveTop globals h r = some p →
    Follows nodes .statement h none p (resolveFrom globals.length fuel (start h none) ⟨nodes, r⟩)

theorem rootFollows_append (hg : g.length = 1) (hround : RoundFollows globals g) (hn : RootFollows globals n) :
    RootFollows globals (g.append n) := by
  intro fuel nodes r p hres hfuel hroot hp
  have hc := hres.consed
  rw [resolveTop_append] at hp
  simp only [bind, Option.bind_eq_some_iff, Option.some.injEq] at hp
  obtain ⟨p₁, hp₁, q, hq, rfl⟩ := hp
  rw [size_append] at hfuel
  obtain ⟨f, rfl⟩ : ∃ f, fuel = f + 1 := ⟨fuel - 1, by omega⟩
  obtain ⟨c, node, hstart, hat, nodes₁, hrun₁, hk₁, hs₁⟩ := hround f nodes r _ p₁ hc.first (by omega) hroot hp₁
  obtain ⟨c', node₁, hstart', -, hat₁, hnext⟩ := hs₁.next_of_single (skeleton_resolveTop globals g hp₁) hg
  obtain rfl : c = c' := Option.some.inj ((hstart none).symm.trans hstart')
  have hn₁ : Resolvable nodes₁ .statement n none :=
    ⟨hk₁.spells hc.rest.spells hc.disjoint, hc.rest.nodup, hc.rest.shape⟩
  have hgsize : 0 < g.size := Nat.lt_of_lt_of_le (by omega) (length_le_size g)
  obtain ⟨nodes₂, hrun₂, hk₂, hs₂⟩ := hn f nodes₁ p₁.2 q hn₁ (by omega) (resolveTop_atRoot g hroot hp₁) hq
  obtain ⟨hk, hs⟩ := hc.follows (skeleton_resolveTop globals g hp₁) (skeleton_resolveTop globals n hq) hk₁ hs₁ hk₂ hs₂
  refine ⟨nodes₂, ?_, hk, hs⟩
  rw [start_append, hstart, resolveFrom_some hat, andThen_ok hrun₁]
  show (access nodes₁ c >>= _) = _
  rw [access_eq_ok.mpr hat₁]
  show resolveFrom globals.length f node₁.nextSibling _ = _
  rw [hnext]
  exact hrun₂

/-- **The second loop resolves the chain as the tree's does.** -/
theorem rootFollows (globals : List HirSymbol) (h : Hir) : RootFollows globals h := by
  induction h with
  | nil =>
      intro fuel nodes r p _ _ _ hp
      cases hp
      refine ⟨nodes, ?_, ⟨rfl, fun _ _ => rfl⟩, trivial⟩
      cases fuel <;> rfl
  | leaf i op n hn =>
      refine rootFollows_append (g := .leaf i op .nil) rfl (roundFollows_other rfl ?_ ?_) hn
      · refine fun hs => ⟨i, _, fun _ => rfl, hs.1, ?_⟩
        cases op <;> exact ⟨(fun h => by cases h), (fun h => by cases h)⟩
      · intro r
        simp [resolveTop, append_nil]
  | one i op a n _ hn =>
      refine rootFollows_append (g := .one i op a .nil) rfl ?_ hn
      cases op with
      | function f names => exact roundFollows_function
      | variableDecl x t => exact roundFollows_variableDecl
      | _ =>
          refine roundFollows_other rfl ?_ ?_
          · exact fun hs => ⟨i, _, fun _ => rfl, hs.1, (fun h => by cases h), (fun h => by cases h)⟩
          · intro r
            simp [resolveTop, append_nil]
  | two i op a b n _ _ hn =>
      refine rootFollows_append (g := .two i op a b .nil) rfl (roundFollows_other rfl ?_ ?_) hn
      · refine fun hs => ⟨i, _, fun _ => rfl, hs.1, ?_⟩
        cases op <;> exact ⟨(fun h => by cases h), (fun h => by cases h)⟩
      · intro r
        simp [resolveTop, append_nil]
  | ifNode i c t e n _ _ _ hn =>
      refine rootFollows_append (g := .ifNode i c t e .nil) rfl (roundFollows_other rfl ?_ ?_) hn
      · exact fun hs => ⟨i, _, fun _ => rfl, hs.1, (fun h => by cases h), (fun h => by cases h)⟩
      · intro r
        simp [resolveTop, append_nil]

/-! ## The whole resolver -/

/-- What the resolver makes of an array that spells a program. -/
structure Resolves (fuel : Nat) (nodes : List VntIrNode) (root : Nat) (h : Hir) : Prop where
  run : ∃ nodes', resolveHirSymbols fuel ⟨nodes, root⟩ = .ok (some ⟨nodes', root⟩) ∧
    nodes'.length = nodes.length ∧ Spells nodes' .root h none

/-- **`resolve_hir_symbols` follows the tree's resolver.** -/
theorem resolveHirSymbols_spells {i fuel : Nat} {a h : Hir} {nodes : List VntIrNode}
    (hres : Resolvable nodes .root (.one i .program a .nil) none) (hfuel : 3 * a.size < fuel)
    (hresolve : Vnt.resolveHirSymbols (.one i .program a .nil) = some h) : Resolves fuel nodes i h := by
  simp only [Vnt.resolveHirSymbols, bind, Option.bind_eq_some_iff, Option.some.injEq] at hresolve
  obtain ⟨p, hp, rfl⟩ := hresolve
  have hready := hres.oneReady
  have hle := length_le_size a
  obtain ⟨hroot, -⟩ := predeclare_atRoot a
  have hpre : predeclareFrom nodes fuel (siblings a).head? ⟨[], 0, 0⟩ = .ok (predeclare a ⟨[], 0, 0⟩) := by
    rw [← start_none]
    exact predeclareFrom_spells a hready.children.spells (by omega)
  obtain ⟨nodes', hrun, hk, hs⟩ := rootFollows _ a fuel nodes _ p hready.children hfuel hroot hp
  rw [List.length_reverse, start_none] at hrun
  refine ⟨nodes', ?_, hk.length, ?_, hs, trivial⟩
  · rw [resolveHirSymbols]
    show (access nodes i >>= _) = _
    rw [access_eq_ok.mpr hready.at_i]
    show (predeclareFrom nodes fuel (siblings a).head? _ >>= _) = _
    rw [hpre]
    exact andThen_ok hrun _
  · rw [hk.frame i hready.not_below, hready.at_i, siblings_of_skeleton (skeleton_resolveTop _ a hp)]
    rfl

end Vnt.Arena
