import Vnt.Ir.Propagate

/-!
# `Ir.OptimizeCorrect` — the optimizer preserves runs

The passes rewrite the top level and every function body at once, and the bodies call each other, so the
preservation of whole runs is a second induction on top of the passes: on the clock. What it needs of a
pass is `SameProgram`: the same global cells, structs and functions, with a main chain and bodies that
run the same. `tops` is the view of the top level that decides the first three.
-/

namespace Vnt

open Lib

variable {H V : Type} {host : Host H V}

/-! ## The top level -/

/-- Two top-level nodes with the same role, and bodies related by `B`. -/
inductive SameTop (B : Hir → Hir → Prop) : Top → Top → Prop
  | global (x : String) : SameTop B (.global x) (.global x)
  | struct (s : String) : SameTop B (.struct s) (.struct s)
  | function (f : String) (names : List String) {body body' : Hir} (h : B body body') :
      SameTop B (.function f names body) (.function f names body')
  | exit : SameTop B .exit .exit
  | other : SameTop B .other .other

/-- Two bodies that run the same under every context of this host. -/
def SameBody (host : Host H V) (b b' : Hir) : Prop :=
  ∀ ctx : Ctx H V, ctx.host = host → runSeq (execs ctx b') = runSeq (execs ctx b)

/-- What `findFunction` gives in two programs. -/
inductive SameFunction (host : Host H V) : Option (List String × Hir) → Option (List String × Hir) → Prop
  | none : SameFunction host none none
  | some (names : List String) {b b' : Hir} (h : SameBody host b b') :
      SameFunction host (some (names, b)) (some (names, b'))

section Tops

variable {B : Hir → Hir → Prop} {ts ts' : List Top}

theorem filterMap_globalName (h : List.Forall₂ (SameTop B) ts ts') :
    ts'.filterMap Top.globalName = ts.filterMap Top.globalName := by
  induction h with
  | nil => rfl
  | cons hab _ ih => cases hab <;> simpa [List.filterMap_cons, Top.globalName] using ih

theorem filterMap_structName (h : List.Forall₂ (SameTop B) ts ts') :
    ts'.filterMap Top.structName = ts.filterMap Top.structName := by
  induction h with
  | nil => rfl
  | cons hab _ ih => cases hab <;> simpa [List.filterMap_cons, Top.structName] using ih

theorem findSome?_functionNamed (h : List.Forall₂ (SameTop (SameBody host)) ts ts') (f : String) :
    SameFunction host (ts.findSome? (Top.functionNamed f)) (ts'.findSome? (Top.functionNamed f)) := by
  induction h with
  | nil => exact .none
  | cons hab _ ih =>
      cases hab with
      | function g names hb =>
          by_cases hg : g = f
          · simpa [List.findSome?_cons, Top.functionNamed, hg] using SameFunction.some names hb
          · simpa [List.findSome?_cons, Top.functionNamed, hg] using ih
      | _ => simpa [List.findSome?_cons, Top.functionNamed] using ih

theorem noExit_of_forall₂ (h : List.Forall₂ (SameTop B) ts ts') (hx : ∀ t ∈ ts, t ≠ .exit) :
    ∀ t ∈ ts', t ≠ .exit := by
  induction h with
  | nil => exact hx
  | cons hab _ ih =>
      simp only [List.forall_mem_cons] at hx ⊢
      refine ⟨?_, ih hx.2⟩
      cases hab <;> simp_all

end Tops

/-! ## Programs that run the same -/

/-- The two programs differ only in code that runs the same. -/
structure SameProgram (host : Host H V) (prog prog' : Hir) : Prop where
  tops : List.Forall₂ (SameTop (SameBody host)) (rootChain prog).tops (rootChain prog').tops
  main : SameBody host (rootChain prog) (rootChain prog')

namespace SameProgram

variable {prog prog' prog'' : Hir}

theorem globalNames (h : SameProgram host prog prog') :
    globalNames (rootChain prog') = Vnt.globalNames (rootChain prog) := filterMap_globalName h.tops

theorem structNames (h : SameProgram host prog prog') :
    structNames (rootChain prog') = Vnt.structNames (rootChain prog) := filterMap_structName h.tops

theorem findFunction (h : SameProgram host prog prog') (f : String) :
    SameFunction host (findFunction f (rootChain prog)) (Vnt.findFunction f (rootChain prog')) :=
  findSome?_functionNamed h.tops f

/-- Calls behave the same at every clock. -/
theorem callUser (h : SameProgram host prog prog') :
    ∀ clock, callUser host prog' clock = Vnt.callUser host prog clock := by
  intro clock
  induction clock with
  | zero => rfl
  | succ clock ih =>
      funext f args
      unfold Vnt.callUser
      have hf := h.findFunction f
      rw [h.globalNames, h.structNames, ih]
      cases hf' : Vnt.findFunction f (rootChain prog) with
      | none =>
          rw [hf'] at hf
          generalize Vnt.findFunction f (rootChain prog') = r at hf
          cases hf
          rfl
      | some p =>
          obtain ⟨names, body⟩ := p
          rw [hf'] at hf
          generalize Vnt.findFunction f (rootChain prog') = r at hf
          cases hf with
          | some _ hb => simp only [hb { host, frame := _, .. } rfl]

/-- **Programs that differ only in code that runs the same have the same runs.** -/
theorem run (h : SameProgram host prog prog') (heap : H) (clock : Nat) :
    run host heap prog' clock = Vnt.run host heap prog clock := by
  have hctx : mainCtx host prog' clock = mainCtx host prog clock := by
    simp only [mainCtx, h.globalNames, h.structNames, h.callUser clock]
  unfold Vnt.run
  rw [hctx, h.main (mainCtx host prog clock) rfl]

end SameProgram

/-! ## The passes -/

/-- A pass that runs each statement as before also runs bodies as before. -/
theorem sameBody_of_sameCode {h h' : Hir}
    (hc : ∀ ctx : Ctx H V, ctx.host = host → SameCode ctx h h') : SameBody host h h' := by
  intro ctx hctx
  rw [(hc ctx hctx).execs]

theorem sameBody_hirFoldNode (h : Hir) : SameBody host h (hirFoldNode host.float h).1 := by
  refine sameBody_of_sameCode fun ctx hctx => ?_
  subst hctx
  exact sameCode_hirFoldNode ctx h

theorem tops_hirFoldNode (h : Hir) :
    List.Forall₂ (SameTop (SameBody host)) h.tops (hirFoldNode host.float h).1.tops := by
  induction h with
  | nil => exact .nil
  | leaf i op n hn => cases op <;> refine .cons ?_ hn <;> constructor
  | one i op a n ha hn =>
      cases op with
      | unary u =>
          simp only [hirFoldNode]
          split
          · rename_i c hc
            cases c <;> refine .cons ?_ hn <;> constructor
          · refine .cons ?_ hn
            constructor
      | function f names => exact .cons (.function f names (sameBody_hirFoldNode a)) hn
      | _ => refine .cons ?_ hn; constructor
  | two i op a b n ha hb hn =>
      simp only [hirFoldNode]
      split
      · rename_i c hc
        cases c <;> refine .cons ?_ hn <;> constructor
      · exact .cons .other hn
  | ifNode i c t e n hc ht he hn => exact .cons .other hn

theorem sameProgram_hirFoldNode (host : Host H V) (i : Nat) (a n : Hir) :
    SameProgram host (.one i .program a n) (hirFoldNode host.float (.one i .program a n)).1 :=
  ⟨tops_hirFoldNode a, sameBody_hirFoldNode a⟩

/-- A function body in which propagation meets no stale fact. -/
def staleFreeBody : Hir → Bool
  | .one _ .program a _ => staleFree a []
  | _ => true

/-- The same for every function of the top level. -/
def staleFreeFunctions : Hir → Bool
  | .nil => true
  | .leaf _ _ n => staleFreeFunctions n
  | .one _ (.function _ _) a n => staleFreeBody a && staleFreeFunctions n
  | .one _ _ _ n => staleFreeFunctions n
  | .two _ _ _ _ n => staleFreeFunctions n
  | .ifNode _ _ _ _ n => staleFreeFunctions n

/-- **Propagation of one round meets no stale fact**, on the top level or in a function. -/
def staleFreeRoot : Hir → Bool
  | .one _ .program a _ => staleFree a [] && staleFreeFunctions a
  | _ => true

theorem sameBody_hirPropagateBody {b : Hir} (hs : staleFreeBody b = true) :
    SameBody host b (hirPropagateBody b).1 := by
  intro ctx _
  unfold hirPropagateBody
  split
  · simp only [staleFreeBody] at hs
    simp only [execs, execOne, runSeq_hirPropagateSequence ctx hs]
  · rfl

theorem tops_hirPropagateSequence (h : Hir) : ∀ env, staleFreeFunctions h = true →
    List.Forall₂ (SameTop (SameBody host)) h.tops (hirPropagateSequence h env).1.tops := by
  induction h with
  | nil => exact fun _ _ => .nil
  | leaf i op n hn =>
      intro env hs
      cases op <;> refine .cons ?_ (hn _ hs) <;> constructor
  | one i op a n ha hn =>
      intro env hs
      cases op with
      | function f names =>
          simp only [staleFreeFunctions, Bool.and_eq_true] at hs
          exact .cons (.function f names (sameBody_hirPropagateBody hs.1)) (hn _ hs.2)
      | _ => refine .cons ?_ (hn _ hs); constructor
  | two i op a b n ha hb hn =>
      intro env hs
      cases op <;> exact .cons .other (hn _ hs)
  | ifNode i c t e n hc ht he hn => exact fun env hs => .cons .other (hn _ hs)

theorem sameProgram_propagateRoot (host : Host H V) (i : Nat) (a n : Hir)
    (hs : staleFreeRoot (.one i .program a n) = true) :
    SameProgram host (.one i .program a n) (propagateRoot (.one i .program a n)).1 := by
  simp only [staleFreeRoot, Bool.and_eq_true] at hs
  exact ⟨tops_hirPropagateSequence a [] hs.2, fun ctx _ => runSeq_hirPropagateSequence ctx hs.1⟩

/-- No statement of the chain itself is a `return`, `break` or `continue`. -/
def Hir.noExit (h : Hir) : Prop := ∀ t ∈ h.tops, t ≠ .exit

/-- Without an exit there is no dead tail. -/
theorem hirPruneSequence_of_noExit (h : Hir) (hx : h.noExit) : (hirPruneSequence h).1 = h := by
  induction h with
  | nil => rfl
  | leaf i op n hn =>
      have hop : op.isExit = false := by
        cases hop : op.isExit with
        | false => rfl
        | true => cases op <;> first | exact absurd rfl (hx _ List.mem_cons_self) | simp [HirLeaf.isExit] at hop
      have hxn : n.noExit := fun t ht => hx t (by cases op <;> exact List.mem_cons_of_mem _ ht)
      simp [hirPruneSequence, hop, hn hxn]
  | one i op a n ha hn =>
      have hop : op.isExit = false := by
        cases hop : op.isExit with
        | false => rfl
        | true => cases op <;> first | exact absurd rfl (hx _ List.mem_cons_self) | simp [HirOne.isExit] at hop
      have hxn : n.noExit := fun t ht => hx t (by cases op <;> exact List.mem_cons_of_mem _ ht)
      simp [hirPruneSequence, hop, hn hxn]
  | two i op a b n ha hb hn =>
      have hxn : n.noExit := fun t ht => hx t (List.mem_cons_of_mem _ ht)
      simp [hirPruneSequence, hn hxn]
  | ifNode i c t e n hc ht he hn =>
      have hxn : n.noExit := fun t ht => hx t (List.mem_cons_of_mem _ ht)
      simp [hirPruneSequence, hn hxn]

theorem sameBody_simplify_prune (h : Hir) :
    SameBody host h (hirPruneSequence (hirSimplifyControlFlow h).1).1 := by
  intro ctx _
  rw [runSeq_hirPruneSequence, (sameCode_hirSimplifyControlFlow ctx h).execs]

theorem tops_hirSimplifyControlFlow (h : Hir) :
    List.Forall₂ (SameTop (SameBody host)) h.tops (hirSimplifyControlFlow h).1.tops := by
  induction h with
  | nil => exact .nil
  | leaf i op n hn => cases op <;> refine .cons ?_ hn <;> constructor
  | one i op a n ha hn =>
      cases op with
      | function f names => exact .cons (.function f names (sameBody_simplify_prune a)) hn
      | _ => refine .cons ?_ hn; constructor
  | two i op a b n ha hb hn =>
      cases op with
      | whileNode =>
          simp only [hirSimplifyControlFlow]
          split <;> exact .cons .other hn
      | _ => exact .cons .other hn
  | ifNode i c t e n hc ht he hn =>
      simp only [hirSimplifyControlFlow]
      split <;> exact .cons .other hn

theorem sameProgram_hirSimplifyControlFlow (host : Host H V) (i : Nat) (a n : Hir) (hx : a.noExit) :
    SameProgram host (.one i .program a n) (hirSimplifyControlFlow (.one i .program a n)).1 := by
  have ht : List.Forall₂ (SameTop (SameBody host)) a.tops (hirSimplifyControlFlow a).1.tops :=
    tops_hirSimplifyControlFlow a
  refine ⟨?_, sameBody_simplify_prune a⟩
  simp only [rootChain, hirSimplifyControlFlow,
    hirPruneSequence_of_noExit _ (noExit_of_forall₂ ht hx)]
  exact ht

theorem tops_number (h : Hir) :
    ∀ k, List.Forall₂ (SameTop (SameBody host)) h.tops (h.number k).tops := by
  have body : ∀ (b : Hir) k, SameBody host b (b.number k) :=
    fun b k => sameBody_of_sameCode fun ctx _ => sameCode_number ctx b k
  induction h with
  | nil => exact fun _ => .nil
  | leaf i op n hn => intro k; cases op <;> refine .cons ?_ (hn _) <;> constructor
  | one i op a n ha hn =>
      intro k
      cases op with
      | function f names => exact .cons (.function f names (body a _)) (hn _)
      | _ => refine .cons ?_ (hn _); constructor
  | two i op a b n ha hb hn => exact fun k => .cons .other (hn _)
  | ifNode i c t e n hc ht he hn => exact fun k => .cons .other (hn _)

theorem sameProgram_number (host : Host H V) (i : Nat) (a n : Hir) :
    SameProgram host (.one i .program a n) ((Hir.one i .program a n).number 0) :=
  ⟨tops_number a _, sameBody_of_sameCode fun ctx _ => sameCode_number ctx a _⟩

/-! ## The rounds -/

/-- A root whose own statements contain no exit: all the checker lets through. -/
def IsOpenRoot (root : Hir) : Prop := ∃ i a n, root = .one i .program a n ∧ a.noExit

/-- In none of the at most `k` rounds does propagation meet a stale fact. -/
def staleFreeRounds (f : FloatUnit) : Nat → Hir → Bool
  | 0, _ => true
  | k + 1, root =>
      staleFreeRoot (hirFoldNode f root).1 &&
        (let r := optimizeRound f root
         r.2 == 0 || staleFreeRounds f k r.1)

/-- One round keeps the root open and every run as it is. -/
theorem optimizeRound_run {root : Hir} (ho : IsOpenRoot root)
    (hs : staleFreeRoot (hirFoldNode host.float root).1 = true) :
    IsOpenRoot (optimizeRound host.float root).1 ∧
      ∀ heap clock, run host heap (optimizeRound host.float root).1 clock = run host heap root clock := by
  obtain ⟨i, a, n, rfl, hx⟩ := ho
  have h₁ := sameProgram_hirFoldNode host i a n
  have hx₁ := noExit_of_forall₂ h₁.tops hx
  have h₂ := sameProgram_propagateRoot host i _ _ hs
  have hx₂ := noExit_of_forall₂ h₂.tops hx₁
  have h₃ := sameProgram_hirFoldNode host i (hirPropagateSequence (hirFoldNode host.float a).1 []).1
    (hirFoldNode host.float n).1
  have hx₃ := noExit_of_forall₂ h₃.tops hx₂
  have h₄ := sameProgram_hirSimplifyControlFlow host i _
    (hirFoldNode host.float (hirFoldNode host.float n).1).1 hx₃
  refine ⟨⟨i, _, _, rfl, noExit_of_forall₂ h₄.tops hx₃⟩, fun heap clock => ?_⟩
  calc run host heap (optimizeRound host.float (.one i .program a n)).1 clock
      = run host heap (.one i .program _ _) clock := h₄.run heap clock
    _ = run host heap (.one i .program _ _) clock := h₃.run heap clock
    _ = run host heap (.one i .program _ _) clock := h₂.run heap clock
    _ = run host heap (.one i .program a n) clock := h₁.run heap clock

theorem optimizeRounds_run : ∀ (k : Nat) {root : Hir}, IsOpenRoot root →
    staleFreeRounds host.float k root = true →
    IsOpenRoot (optimizeRounds host.float k root) ∧
      ∀ heap clock, run host heap (optimizeRounds host.float k root) clock = run host heap root clock := by
  intro k
  induction k with
  | zero => exact fun ho _ => ⟨ho, fun _ _ => rfl⟩
  | succ k ih =>
      intro root ho hs
      simp only [staleFreeRounds, Bool.and_eq_true, Bool.or_eq_true, beq_iff_eq] at hs
      obtain ⟨ho', hrun⟩ := optimizeRound_run ho hs.1
      simp only [optimizeRounds]
      split
      · exact ⟨ho', hrun⟩
      · rename_i hchanged
        obtain ⟨ho'', hrun'⟩ := ih ho' (hs.2.resolve_left hchanged)
        exact ⟨ho'', fun heap clock => (hrun' heap clock).trans (hrun heap clock)⟩

/-- **`vnt_ir_optimize` preserves every run** of a program with an open root in which it meets no stale
    fact: from every initial heap and at every clock, the two runs end in the same way and state. -/
theorem vntIrOptimize_run {ir ir' : Hir} (hopt : vntIrOptimize host.float ir = some ir')
    (ho : IsOpenRoot ir) (hs : staleFreeRounds host.float 8 ir = true) (heap : H) (clock : Nat) :
    run host heap ir' clock = run host heap ir clock := by
  unfold vntIrOptimize at hopt
  split at hopt
  · obtain ⟨⟨i, a, n, hroot, -⟩, hrun⟩ := optimizeRounds_run 8 ho hs
    simp only [hroot] at hopt hrun
    split at hopt
    · cases hopt
      rw [(sameProgram_number host i a n).run, hrun]
    · exact absurd hopt (by simp)
  · exact absurd hopt (by simp)

end Vnt
