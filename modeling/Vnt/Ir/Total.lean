import Vnt.Ir.RootScopes
import Vnt.Ir.Outline

/-!
# `Ir.Total` — the resolver finds whatever is in scope

Where the lexical walk finds a declaration for every occurrence, the resolver finds a symbol for it: its stack holds
at least the names in scope, since it keeps what unsafe blocks declare and does not look into nested functions.
-/

namespace Vnt

/-! ## The stack -/

/-- What the resolver leaves on its stack: more on top, none of it too deep. -/
theorem resolverBindExpr_pushed (h : Hir) : ∀ {r : HirResolver} {p : Hir × HirResolver}, r.Layered →
    resolverBindExpr h r = some p → r.Pushed p.2 ∧ p.2.Layered := by
  induction h with
  | nil => intro r p hl hp; cases hp; exact ⟨.refl r, hl⟩
  | leaf i op n hn =>
      intro r p hl hp
      cases op <;> simp only [resolverBindExpr, bind, Option.bind_eq_some_iff, Option.some.injEq] at hp
      case «variable» =>
        obtain ⟨_, -, q, hq, rfl⟩ := hp
        have hrest := hn hl hq
        exact hrest
      all_goals
        obtain ⟨q, hq, rfl⟩ := hp
        have hrest := hn hl hq
        exact hrest
  | one i op a n ha hn =>
      intro r p hl hp
      cases op <;> simp only [resolverBindExpr, bind, Option.bind_eq_some_iff, Option.some.injEq] at hp
      case function =>
        obtain ⟨q, hq, rfl⟩ := hp
        have hrest := hn hl hq
        exact hrest
      case variableDecl x t =>
        obtain ⟨q, hq, q', hq', rfl⟩ := hp
        obtain ⟨hp₁, hl₁⟩ := ha hl hq
        obtain ⟨hp₂, hl₂⟩ := hn (hl₁.declare x) hq'
        exact ⟨(hp₁.trans (.declare _ x)).trans hp₂, hl₂⟩
      case reassign =>
        obtain ⟨q, hq, _, -, q', hq', rfl⟩ := hp
        obtain ⟨hp₁, hl₁⟩ := ha hl hq
        obtain ⟨hp₂, hl₂⟩ := hn hl₁ hq'
        exact ⟨hp₁.trans hp₂, hl₂⟩
      all_goals
        obtain ⟨q, hq, q', hq', rfl⟩ := hp
        obtain ⟨hp₁, hl₁⟩ := ha hl hq
        obtain ⟨hp₂, hl₂⟩ := hn hl₁ hq'
        exact ⟨hp₁.trans hp₂, hl₂⟩
  | two i op a b n ha hb hn =>
      intro r p hl hp
      cases op <;> simp only [resolverBindExpr, bind, Option.bind_eq_some_iff, Option.some.injEq] at hp <;>
        obtain ⟨q, hq, q', hq', q'', hq'', rfl⟩ := hp <;> obtain ⟨hp₁, hl₁⟩ := ha hl hq
      case whileNode =>
        obtain ⟨hp₂, -⟩ := hb hl₁.enter hq'
        obtain ⟨hp₃, hl₃⟩ := hn (hl₁.leave hp₂) hq''
        exact ⟨(hp₁.trans (hp₂.leave hl₁)).trans hp₃, hl₃⟩
      all_goals
        obtain ⟨hp₂, hl₂⟩ := hb hl₁ hq'
        obtain ⟨hp₃, hl₃⟩ := hn hl₂ hq''
        exact ⟨(hp₁.trans hp₂).trans hp₃, hl₃⟩
  | ifNode i c t e n hc ht he hn =>
      intro r p hl hp
      simp only [resolverBindExpr, bind, Option.bind_eq_some_iff, Option.some.injEq] at hp
      obtain ⟨q, hq, qt, hqt, qe, hqe, q', hq', rfl⟩ := hp
      obtain ⟨hp₁, hl₁⟩ := hc hl hq
      obtain ⟨hpt, -⟩ := ht hl₁.enter hqt
      obtain ⟨hpe, -⟩ := he (hl₁.pop hpt) hqe
      have hbranches := (hpt.pop hl₁).trans hpe
      obtain ⟨hp', hl'⟩ := hn (hl₁.leave hbranches) hq'
      exact ⟨(hp₁.trans (hbranches.leave hl₁)).trans hp', hl'⟩

/-! ## Names in scope -/

/-- Every name in scope has a symbol. -/
def HirResolver.Covers (r : HirResolver) (s : Scope) : Prop :=
  ∀ x ∈ s.env.map Prod.fst, x ∈ r.symbols.map HirSymbol.sourceName

namespace HirResolver.Covers

variable {r r' : HirResolver} {s s' : Scope}

theorem find (h : r.Covers s) {x : String} {k : Nat} (hk : s.env.lookup x = some k) : ∃ symbol, r.find x = some symbol := by
  have hmem : x ∈ s.env.map Prod.fst := by
    obtain ⟨l₁, l₂, henv, -⟩ := List.lookup_eq_some_iff.mp hk
    rw [henv]
    simp
  obtain ⟨b, hb, rfl⟩ := List.mem_map.mp (h x hmem)
  refine Option.isSome_iff_exists.mp (List.find?_isSome.mpr ⟨b, hb, ?_⟩)
  exact beq_self_eq_true _

theorem declare (h : r.Covers s) (x : String) : (r.declare x).Covers (s.declare x) := by
  intro y hy
  rcases List.mem_cons.mp hy with rfl | hy
  · exact List.mem_cons_self
  · exact List.mem_cons_of_mem _ (h y hy)

theorem of_symbols (h : r.Covers s) (hr : r'.symbols = r.symbols) (hs : s'.env = s.env) : r'.Covers s' := by
  unfold HirResolver.Covers
  rw [hr, hs]
  exact h

/-- More symbols do no harm. -/
theorem pushed (h : r.Covers s) (hp : r.Pushed r') : r'.Covers s := by
  obtain ⟨-, new, hsymbols, -⟩ := hp
  intro x hx
  rw [hsymbols, List.map_append, List.mem_append]
  exact .inr (h x hx)

/-- The end of a block. -/
theorem leave {inner : HirResolver} {t : Scope} (h : r.Covers s) (hl : r.Layered) (hp : r.enter.Pushed inner) :
    (r.leave inner).Covers (s.leave t) :=
  h.of_symbols (hp.pop_symbols hl) rfl

theorem pop {inner : HirResolver} {t : Scope} (h : r.Covers s) (hl : r.Layered) (hp : r.enter.Pushed inner) :
    inner.pop.Covers (s.leave t) :=
  h.of_symbols (hp.pop_symbols hl) rfl

end HirResolver.Covers

/-- Where the walk goes through, so does the resolver. -/
theorem resolverBindExpr_total (h : Hir) : ∀ {s : Scope} {q : List (String × Nat) × Scope} {r : HirResolver},
    walk false h s = some q → r.Layered → r.Covers s → ∃ p, resolverBindExpr h r = some p ∧ p.2.Covers q.2 := by
  induction h with
  | nil => intro s q r hw _ hc; cases hw; exact ⟨_, rfl, hc⟩
  | leaf i op n hn =>
      intro s q r hw hl hc
      cases op with
      | «variable» x =>
          simp only [walk, bind, Option.bind_eq_some_iff, Option.some.injEq] at hw
          obtain ⟨k, hk, n', hn', rfl⟩ := hw
          obtain ⟨symbol, hfind⟩ := hc.find hk
          obtain ⟨p, hp, hcov⟩ := hn hn' hl hc
          refine ⟨_, by simp only [resolverBindExpr, hfind, hp, bind, Option.bind_some]; rfl, ?_⟩
          exact hcov
      | _ =>
          obtain ⟨p, hp, hcov⟩ := hn hw hl hc
          refine ⟨_, by simp only [resolverBindExpr, hp, bind, Option.bind_some]; rfl, ?_⟩
          exact hcov
  | one i op a n ha hn =>
      intro s q r hw hl hc
      cases op with
      | variableDecl x t =>
          simp only [walk, bind, Option.bind_eq_some_iff, Option.some.injEq] at hw
          obtain ⟨a', ha', n', hn', rfl⟩ := hw
          obtain ⟨p, hp, hcov⟩ := ha ha' hl hc
          obtain ⟨-, hl'⟩ := resolverBindExpr_pushed a hl hp
          obtain ⟨p', hp', hcov'⟩ := hn hn' (hl'.declare x) (hcov.declare x)
          refine ⟨_, by simp only [resolverBindExpr, hp, hp', bind, Option.bind_some]; rfl, ?_⟩
          exact hcov'
      | reassign x t =>
          simp only [walk, bind, Option.bind_eq_some_iff, Option.some.injEq] at hw
          obtain ⟨a', ha', k, hk, n', hn', rfl⟩ := hw
          obtain ⟨p, hp, hcov⟩ := ha ha' hl hc
          obtain ⟨symbol, hfind⟩ := hcov.find hk
          obtain ⟨-, hl'⟩ := resolverBindExpr_pushed a hl hp
          obtain ⟨p', hp', hcov'⟩ := hn hn' hl' hcov
          refine ⟨_, by simp only [resolverBindExpr, hp, hfind, hp', bind, Option.bind_some]; rfl, ?_⟩
          exact hcov'
      | function f names =>
          simp only [walk, bind, Option.bind_eq_some_iff, Option.some.injEq, Bool.false_eq_true, if_false] at hw
          obtain ⟨a', -, n', hn', rfl⟩ := hw
          obtain ⟨p, hp, hcov⟩ := hn hn' hl (hc.of_symbols rfl rfl)
          refine ⟨_, by simp only [resolverBindExpr, hp, bind, Option.bind_some]; rfl, ?_⟩
          exact hcov
      | program =>
          -- what the block declares stays on the stack
          simp only [walk, bind, Option.bind_eq_some_iff, Option.some.injEq, Bool.false_eq_true, if_false] at hw
          obtain ⟨a', ha', n', hn', rfl⟩ := hw
          obtain ⟨p, hp, -⟩ := ha ha' hl hc
          obtain ⟨hpush, hl'⟩ := resolverBindExpr_pushed a hl hp
          obtain ⟨p', hp', hcov'⟩ := hn hn' hl' ((hc.pushed hpush).of_symbols rfl rfl)
          refine ⟨_, by simp only [resolverBindExpr, hp, hp', bind, Option.bind_some]; rfl, ?_⟩
          exact hcov'
      | _ =>
          simp only [walk, bind, Option.bind_eq_some_iff, Option.some.injEq] at hw
          obtain ⟨a', ha', n', hn', rfl⟩ := hw
          obtain ⟨p, hp, hcov⟩ := ha ha' hl hc
          obtain ⟨-, hl'⟩ := resolverBindExpr_pushed a hl hp
          obtain ⟨p', hp', hcov'⟩ := hn hn' hl' hcov
          refine ⟨_, by simp only [resolverBindExpr, hp, hp', bind, Option.bind_some]; rfl, ?_⟩
          exact hcov'
  | two i op a b n ha hb hn =>
      intro s q r hw hl hc
      cases op with
      | whileNode =>
          simp only [walk, bind, Option.bind_eq_some_iff, Option.some.injEq] at hw
          obtain ⟨a', ha', b', hb', n', hn', rfl⟩ := hw
          obtain ⟨p, hp, hcov⟩ := ha ha' hl hc
          obtain ⟨-, hl'⟩ := resolverBindExpr_pushed a hl hp
          obtain ⟨p', hp', -⟩ := hb hb' hl'.enter (hcov.of_symbols rfl rfl)
          obtain ⟨hpush, -⟩ := resolverBindExpr_pushed b hl'.enter hp'
          obtain ⟨p'', hp'', hcov''⟩ := hn hn' (hl'.leave hpush) (hcov.leave hl' hpush)
          refine ⟨_, by simp only [resolverBindExpr, hp, hp', hp'', bind, Option.bind_some]; rfl, ?_⟩
          exact hcov''
      | _ =>
          simp only [walk, bind, Option.bind_eq_some_iff, Option.some.injEq] at hw
          obtain ⟨a', ha', b', hb', n', hn', rfl⟩ := hw
          obtain ⟨p, hp, hcov⟩ := ha ha' hl hc
          obtain ⟨-, hl'⟩ := resolverBindExpr_pushed a hl hp
          obtain ⟨p', hp', hcov'⟩ := hb hb' hl' hcov
          obtain ⟨-, hl''⟩ := resolverBindExpr_pushed b hl' hp'
          obtain ⟨p'', hp'', hcov''⟩ := hn hn' hl'' hcov'
          refine ⟨_, by simp only [resolverBindExpr, hp, hp', hp'', bind, Option.bind_some]; rfl, ?_⟩
          exact hcov''
  | ifNode i c t e n hc' ht he hn =>
      intro s q r hw hl hc
      simp only [walk, bind, Option.bind_eq_some_iff, Option.some.injEq] at hw
      obtain ⟨cw, hcw, tw, htw, ew, hew, n', hn', rfl⟩ := hw
      obtain ⟨p, hp, hcov⟩ := hc' hcw hl hc
      obtain ⟨-, hl'⟩ := resolverBindExpr_pushed c hl hp
      obtain ⟨pt, hpt, -⟩ := ht htw hl'.enter (hcov.of_symbols rfl rfl)
      obtain ⟨hpush, -⟩ := resolverBindExpr_pushed t hl'.enter hpt
      obtain ⟨pe, hpe, -⟩ := he hew (hl'.pop hpush) (hcov.pop hl' hpush)
      obtain ⟨hpush', -⟩ := resolverBindExpr_pushed e (hl'.pop hpush) hpe
      have hbranches := (hpush.pop hl').trans hpush'
      obtain ⟨p', hp', hcov'⟩ := hn hn' (hl'.leave hbranches) (hcov.leave hl' hbranches)
      refine ⟨_, by simp only [resolverBindExpr, hp, hpt, hpe, hp', bind, Option.bind_some]; rfl, ?_⟩
      exact hcov'

/-! ## The root -/

theorem declareNames_pushed (xs : List String) : ∀ {r : HirResolver}, r.Layered →
    r.Pushed (declareNames xs r).2 ∧ (declareNames xs r).2.Layered := by
  induction xs with
  | nil => exact fun hl => ⟨.refl _, hl⟩
  | cons x xs ih =>
      intro r hl
      obtain ⟨hp, hl'⟩ := ih (hl.declare x)
      exact ⟨(HirResolver.Pushed.declare r x).trans hp, hl'⟩

theorem declareNames_covers (xs : List String) : ∀ {r : HirResolver} {s : Scope}, r.Covers s →
    (declareNames xs r).2.Covers (Scope.declareAll xs s).2 := by
  induction xs with
  | nil => exact fun hc => hc
  | cons x xs ih => exact fun hc => ih (hc.declare x)

/-- The resolver between two children of the root. -/
structure AtRoot (globals : List HirSymbol) (r : HirResolver) : Prop where
  depth : r.depth = 0
  layered : r.Layered
  globals : globals <+: r.symbols.reverse

namespace AtRoot

variable {globals : List HirSymbol} {r r' : HirResolver}

theorem pushed (h : AtRoot globals r) (hp : r.Pushed r') (hl : r'.Layered) : AtRoot globals r' := by
  obtain ⟨hd, new, hsymbols, -⟩ := hp
  refine ⟨hd.trans h.depth, hl, ?_⟩
  rw [hsymbols, List.reverse_append]
  exact h.globals.trans (List.prefix_append _ _)

theorem enter (h : AtRoot globals r) : ({ r with depth := 1 } : HirResolver) = r.enter := by
  simp [HirResolver.enter, h.depth]

theorem base (h : AtRoot globals r) (hp : r.enter.Pushed r') : AtRoot globals { r' with
    symbols := r'.symbols.drop (r'.symbols.length - r.symbols.length), depth := 0 } := by
  have hs := hp.drop_symbols
  refine ⟨rfl, ?_, ?_⟩
  · simp only [HirResolver.Layered, hs]
    exact fun b hb => h.depth ▸ h.layered b hb
  · simp only [hs]
    exact h.globals

end AtRoot

/-- What one round of the root's loop leaves on the stack. -/
theorem resolveTop_atRoot {globals : List HirSymbol} (h : Hir) : ∀ {r : HirResolver} {p : Hir × HirResolver},
    AtRoot globals r → resolveTop globals h r = some p → AtRoot globals p.2 := by
  have statement : ∀ {h n : Hir} {r : HirResolver} {p : Hir × HirResolver}, AtRoot globals r →
      (∀ {r : HirResolver} {p : Hir × HirResolver}, AtRoot globals r → resolveTop globals n r = some p →
        AtRoot globals p.2) →
      (do let q ← resolverBindExpr h r; let q' ← resolveTop globals n q.2; some (q.1.append q'.1, q'.2)) = some p →
      AtRoot globals p.2 := by
    intro h n r p hr hn hp
    simp only [bind, Option.bind_eq_some_iff, Option.some.injEq] at hp
    obtain ⟨q, hq, q', hq', rfl⟩ := hp
    obtain ⟨hpush, hl⟩ := resolverBindExpr_pushed h hr.layered hq
    have hrest := hn (hr.pushed hpush hl) hq'
    exact hrest
  induction h with
  | nil => intro r p hr hp; cases hp; exact hr
  | leaf i op n hn => intro r p hr hp; exact statement hr hn hp
  | one i op a n _ hn =>
      intro r p hr hp
      cases op with
      | function f names =>
          simp only [resolveTop, bind, Option.bind_eq_some_iff, Option.some.injEq, hr.enter] at hp
          obtain ⟨q, hq, q', hq', rfl⟩ := hp
          obtain ⟨hpush, hl⟩ := declareNames_pushed names hr.layered.enter
          obtain ⟨hpush', -⟩ := resolverBindExpr_pushed a hl hq
          have hrest := hn (hr.base (hpush.trans hpush')) hq'
          exact hrest
      | variableDecl x t =>
          simp only [resolveTop, bind, Option.bind_eq_some_iff, Option.some.injEq] at hp
          obtain ⟨_, -, q, hq, q', hq', rfl⟩ := hp
          obtain ⟨hpush, hl⟩ := resolverBindExpr_pushed a hr.layered hq
          have hrest := hn (hr.pushed hpush hl) hq'
          exact hrest
      | _ => exact statement hr hn hp
  | two i op a b n _ _ hn => intro r p hr hp; exact statement hr hn hp
  | ifNode i c t e n _ _ _ hn => intro r p hr hp; exact statement hr hn hp

/-- **Where the root can be walked it can be resolved.** -/
theorem resolveTop_total {globals : List HirSymbol} (h : Hir) : ∀ {s : Scope} {q : List (String × Nat) × Scope}
    {r : HirResolver}, walk false h s = some q → (∀ x ∈ h.rootDeclared, ∃ b ∈ globals, b.sourceName = x) →
    AtRoot globals r → r.Covers s → ∃ p, resolveTop globals h r = some p := by
  have statement : ∀ {h n : Hir} {s : Scope} {q : List (String × Nat) × Scope} {r : HirResolver},
      (do let h' ← walk false h s; let n' ← walk false n h'.2; some (h'.1 ++ n'.1, n'.2)) = some q →
      AtRoot globals r → r.Covers s →
      (∀ {s : Scope} {q : List (String × Nat) × Scope} {r : HirResolver}, walk false n s = some q →
        AtRoot globals r → r.Covers s → ∃ p, resolveTop globals n r = some p) →
      ∃ p, (do let q ← resolverBindExpr h r; let q' ← resolveTop globals n q.2; some (q.1.append q'.1, q'.2)) =
        some p := by
    intro h n s q r hw hr hc hn
    simp only [bind, Option.bind_eq_some_iff, Option.some.injEq] at hw
    obtain ⟨h', hh', n', hn', rfl⟩ := hw
    obtain ⟨p, hp, hcov⟩ := resolverBindExpr_total h hh' hr.layered hc
    obtain ⟨hpush, hl⟩ := resolverBindExpr_pushed h hr.layered hp
    obtain ⟨p', hp'⟩ := hn hn' (hr.pushed hpush hl) hcov
    exact ⟨_, by simp only [hp, hp', bind, Option.bind_some]; rfl⟩
  induction h with
  | nil => exact fun _ _ _ _ => ⟨_, rfl⟩
  | leaf i op n hn =>
      intro s q r hw hglobal hr hc
      rw [walk_cons] at hw
      exact statement hw hr hc fun hw' hr' hc' => hn hw' hglobal hr' hc'
  | one i op a n _ hn =>
      intro s q r hw hglobal hr hc
      cases op with
      | function f names =>
          simp only [walk, bind, Option.bind_eq_some_iff, Option.some.injEq, Bool.false_eq_true, if_false] at hw
          obtain ⟨a', ha', n', hn', rfl⟩ := hw
          obtain ⟨hpush, hl⟩ := declareNames_pushed names hr.layered.enter
          have hcov := declareNames_covers names (hc.of_symbols rfl rfl : r.enter.Covers s)
          obtain ⟨p, hp, -⟩ := resolverBindExpr_total a ha' hl hcov
          obtain ⟨hpush', -⟩ := resolverBindExpr_pushed a hl hp
          have hpushed := hpush.trans hpush'
          obtain ⟨p', hp'⟩ := hn hn' hglobal (hr.base hpushed) (hc.of_symbols hpushed.drop_symbols rfl)
          exact ⟨_, by simp only [resolveTop, hr.enter, hp, hp', bind, Option.bind_some]; rfl⟩
      | variableDecl x t =>
          simp only [walk, bind, Option.bind_eq_some_iff, Option.some.injEq] at hw
          obtain ⟨a', ha', n', hn', rfl⟩ := hw
          obtain ⟨b, hb, hx⟩ := hglobal x List.mem_cons_self
          obtain ⟨global, hfind⟩ : ∃ global, globals.find? (fun s => s.sourceName == x) = some global :=
            Option.isSome_iff_exists.mp (List.find?_isSome.mpr ⟨b, hb, by rw [hx]; exact beq_self_eq_true x⟩)
          obtain ⟨p, hp, hcov⟩ := resolverBindExpr_total a ha' hr.layered hc
          obtain ⟨hpush, hl⟩ := resolverBindExpr_pushed a hr.layered hp
          have hr' := hr.pushed hpush hl
          -- the declaration has had its symbol from the beginning
          have hcov' : p.2.Covers (a'.2.declare x) := by
            intro y hy
            rcases List.mem_cons.mp hy with rfl | hy
            · have hmem := hr'.globals.subset hb
              exact List.mem_map.mpr ⟨b, List.mem_reverse.mp hmem, hx⟩
            · exact hcov y hy
          obtain ⟨p', hp'⟩ := hn hn' (fun y hy => hglobal y (List.mem_cons_of_mem _ hy)) hr' hcov'
          exact ⟨_, by simp only [resolveTop, hfind, hp, hp', bind, Option.bind_some]; rfl⟩
      | _ =>
          rw [walk_cons] at hw
          exact statement hw hr hc fun hw' hr' hc' => hn hw' hglobal hr' hc'
  | two i op a b n _ _ hn =>
      intro s q r hw hglobal hr hc
      rw [walk_cons] at hw
      exact statement hw hr hc fun hw' hr' hc' => hn hw' hglobal hr' hc'
  | ifNode i c t e n _ _ _ hn =>
      intro s q r hw hglobal hr hc
      rw [walk_cons] at hw
      exact statement hw hr hc fun hw' hr' hc' => hn hw' hglobal hr' hc'

/-- The stack after the first loop: the declarations of the root. -/
theorem predeclare_atRoot (h : Hir) : AtRoot (predeclare h ⟨[], 0, 0⟩).symbols.reverse (predeclare h ⟨[], 0, 0⟩) ∧
    ∀ x ∈ h.rootDeclared, ∃ b ∈ (predeclare h ⟨[], 0, 0⟩).symbols.reverse, b.sourceName = x := by
  obtain ⟨hkeyed, hdepth⟩ := keyed_predeclare h
  refine ⟨⟨hdepth, hkeyed.depth, List.prefix_refl _⟩, fun x hx => ?_⟩
  have hnames : (predeclare h ⟨[], 0, 0⟩).symbols.map HirSymbol.sourceName = (predeclared h).env.map Prod.fst := by
    have := congrArg (List.map Prod.fst) hkeyed.symbols
    simpa [Function.comp_def] using this
  have hmem : x ∈ (predeclared h).env.map Prod.fst := by
    simpa [predeclared, Scope.declareAll_eq] using hx
  rw [← hnames] at hmem
  obtain ⟨b, hb, hb'⟩ := List.mem_map.mp hmem
  exact ⟨b, List.mem_reverse.mpr hb, hb'⟩

/-- **`resolve_hir_symbols` succeeds on every program whose occurrences are all in scope.** -/
theorem resolveHirSymbols_total {i : Nat} {h n : Hir} {log : List (String × Nat)} {s : Scope}
    (hwalk : walk false h ⟨[], 0⟩ = some (log, s)) : ∃ p, resolveHirSymbols (.one i .program h n) =
      some (.one i .program p.1 n) ∧
      resolveTop (predeclare h ⟨[], 0, 0⟩).symbols.reverse h (predeclare h ⟨[], 0, 0⟩) = some p := by
  obtain ⟨hroot, hglobal⟩ := predeclare_atRoot h
  obtain ⟨p, hp⟩ := resolveTop_total h hwalk hglobal hroot (by intro x hx; cases hx)
  exact ⟨p, by simp only [resolveHirSymbols, hp, bind, Option.bind_some], hp⟩

end Vnt
