import Vnt.Cfg.GuardedRun
import Vnt.Compile.Accepted

/-!
# `Compile.Initialised` — reads of unassigned storage in accepted programs

The analysis takes every initialized global as assigned when a function is entered. What it proves is
therefore relative: a run reads nothing unassigned as long as no function is entered while a global it may
use before assigning it is still unassigned. A call in front of the declaration breaks that.
-/

namespace Vnt

open Lib

/-- `compile_mode` up to the backend: the HIR that is handed to it. -/
def compileMode (f : FloatUnit) (ast : AstNode) : Option Hir := do
  let (_, ir) ← frontHalf f ast
  if vntIrValidate ir then
    let cfg ← vntCfgBuild ir
    if vntCfgValidate cfg then
      (vntCfgCheckDefiniteAssignment ir cfg).toOption
      some ir
    else none
  else none

theorem compileMode_eq_some {f : FloatUnit} {ast : AstNode} {ir : Hir} (h : compileMode f ast = some ir) :
    ∃ cfg, vntCfgBuild ir = some cfg ∧ vntCfgCheckDefiniteAssignment ir cfg = .ok () := by
  simp only [compileMode, bind, Option.bind_eq_some_iff, Option.ite_none_right_eq_some] at h
  obtain ⟨p, -, -, cfg, hcfg, -, u, hok, ⟨⟩⟩ := h
  refine ⟨cfg, hcfg, ?_⟩
  cases hc : vntCfgCheckDefiniteAssignment p.2 cfg with
  | error e => rw [hc] at hok; cases hok
  | ok v => rfl

/-! ## What a function may use when it is entered -/

/-- Some run of the body uses `x` before it has assigned it. -/
def Exposed (body : Hir) (x : String) : Prop :=
  ∃ es ev rest o, Runs body (es ++ ev :: rest) o ∧ x ∈ ev.uses ∧ ¬ Defined es x

/-- A function entry, with the globals that are unassigned then: the function uses none of them before
    assigning it. A parameter hides the global of its name. -/
def Covered (prog : Hir) (entry : String × List String) : Prop :=
  ∀ names body, findFunction entry.1 (rootChain prog) = some (names, body) →
    ∀ x ∈ entry.2, x ∉ names → ¬ Exposed body x

theorem mem_functionNodes_of_tops {h : Hir} {f : String} {names : List String} {body : Hir}
    (ht : Top.function f names body ∈ h.tops) : ∃ i, ⟨i, names, body⟩ ∈ h.functionNodes := by
  induction h with
  | nil => cases ht
  | leaf i op n ih =>
      cases op <;> rcases List.mem_cons.mp ht with ht | ht
      all_goals first | cases ht | exact ih ht
  | one i op a n _ ih =>
      cases op with
      | function g names' =>
          rcases List.mem_cons.mp ht with ht | ht
          · cases ht
            exact ⟨i, List.mem_cons_self⟩
          · obtain ⟨j, hj⟩ := ih ht
            exact ⟨j, List.mem_cons_of_mem _ (List.mem_append_right _ hj)⟩
      | _ =>
          rcases List.mem_cons.mp ht with ht | ht
          · cases ht
          · obtain ⟨j, hj⟩ := ih ht
            exact ⟨j, List.mem_append_right _ hj⟩
  | two i op a b n _ _ ih =>
      rcases List.mem_cons.mp ht with ht | ht
      · cases ht
      · obtain ⟨j, hj⟩ := ih ht
        exact ⟨j, List.mem_append_right _ (List.mem_append_right _ hj)⟩
  | ifNode i c t e n _ _ _ ih =>
      rcases List.mem_cons.mp ht with ht | ht
      · cases ht
      · obtain ⟨j, hj⟩ := ih ht
        exact ⟨j, List.mem_append_right _ (List.mem_append_right _ (List.mem_append_right _ hj))⟩

/-- A function the backend finds has an entry of its own in the graph. -/
theorem entry_of_findFunction {ir : Hir} {f : String} {names : List String} {body : Hir}
    (hf : findFunction f (rootChain ir) = some (names, body)) :
    ∃ i, ir.bodies[i]? = some body ∧ entryFacts ir i = initializedGlobals ir.rootBody ++ names := by
  obtain ⟨top, hmem, htop⟩ := List.exists_of_findSome?_eq_some hf
  obtain ⟨g, rfl⟩ : ∃ g, top = .function g names body := by
    cases top with
    | function g names' body' =>
        simp only [Top.functionNamed, Option.ite_none_right_eq_some] at htop
        obtain ⟨-, ⟨⟩⟩ := htop
        exact ⟨g, rfl⟩
    | _ => cases htop
  obtain ⟨position, hnode⟩ := mem_functionNodes_of_tops hmem
  have hroot : ⟨position, names, body⟩ ∈ ir.functionNodes := by
    cases ir with
    | one i op a n =>
        cases op with
        | program => exact List.mem_append_left _ hnode
        | _ => cases hnode
    | _ => cases hnode
  have harena : ⟨position, names, body⟩ ∈ ir.arenaFunctions := (List.mem_insertionSort _).mpr hroot
  obtain ⟨i, hi⟩ := List.mem_iff_getElem?.mp harena
  refine ⟨i + 1, ?_, ?_⟩
  · simp [Hir.bodies, hi]
  · simp [entryFacts, hi]

theorem global_mem_tops {h : Hir} {x : String} (hx : x ∈ initializedGlobals h) : Top.global x ∈ h.tops := by
  induction h with
  | nil => cases hx
  | leaf i op n ih => cases op <;> exact List.mem_cons_of_mem _ (ih hx)
  | one i op a n _ ih =>
      cases op with
      | variableDecl y t =>
          simp only [initializedGlobals] at hx
          split at hx
          · exact List.mem_cons_of_mem _ (ih hx)
          · rcases List.mem_cons.mp hx with rfl | hx
            · exact List.mem_cons_self
            · exact List.mem_cons_of_mem _ (ih hx)
      | _ => exact List.mem_cons_of_mem _ (ih hx)
  | two i op a b n _ _ ih => exact List.mem_cons_of_mem _ (ih hx)
  | ifNode i c t e n _ _ _ ih => exact List.mem_cons_of_mem _ (ih hx)

theorem mem_globalNames {h : Hir} {x : String} (hx : x ∈ initializedGlobals h) : x ∈ globalNames h :=
  List.mem_filterMap.mpr ⟨.global x, global_mem_tops hx, rfl⟩

/-! ## Calls -/

section Calls

variable {H V : Type} {R : HostRefs H V} {prog : Hir} {A : Addr → Prop}

/-- Entering a function that is covered: the globals it may use are assigned. -/
theorem guarded_watchEntry {f : String} {names : List String} {body : Hir} {globals : List String}
    (hf : findFunction f (rootChain prog) = some (names, body)) :
    Guarded (Covered prog) (Inv R A) (watchEntry globals f : M H V Unit) fun _ =>
      Inv R fun a => A a ∨ ∃ x ∈ globals, x ∉ names ∧ Exposed body x ∧ a = .global x := by
  refine ⟨fun s _ he => List.mem_cons_of_mem _ he, fun _ _ _ => rfl, fun s hs hc u s' hu => ?_⟩
  have hentry := hc _ List.mem_cons_self names body hf
  cases hu
  refine ⟨hs.1, fun a ha => ?_⟩
  rcases ha with ha | ⟨x, hx, hname, hexp, rfl⟩
  · exact hs.2 a ha
  · -- An unassigned one would be among the globals written down.
    by_contra hun
    refine hentry x ?_ hname hexp
    rw [List.mem_filter]
    exact ⟨hx, by simpa [Assigned] using hun⟩

/-- A new frame has its parameters assigned. -/
theorem guarded_enterFrame {names : List String} {args : List (Value V)} {C : String × List String → Prop}
    (hargs : ∀ a, Refer R args a → A a) :
    Guarded C (Inv R A) (enterFrame names args : M H V Nat) fun frame =>
      Inv R fun a => A a ∨ ∃ x ∈ names, a = .slot frame x := by
  refine ⟨fun s _ he => he, fun _ _ _ => rfl, fun s hs _ frame s' hf => ?_⟩
  unfold enterFrame at hf
  cases hf
  have mono : ∀ a, Assigned s a → Assigned (finalState (enterFrame names args s)) a := by
    intro a ha
    cases a with
    | global x => exact ha
    | slot f x =>
        show (if f = s.frames ∧ x ∈ names then some (((names.zip args).lookup x).getD .null) else s.vars (.slot f x)).isSome =
          true
        split
        · rfl
        · exact ha
  refine ⟨fun a ha => mono a ?_, fun a ha => ?_⟩
  · rcases ha with ha | ⟨b, v, hv, hr⟩
    · exact hs.1 a (.inl ha)
    · cases b with
      | global x => exact hs.1 a (.inr ⟨_, v, hv, hr⟩)
      | slot f x =>
          simp only at hv
          split at hv
          · -- A parameter holds an argument, or `null`.
            cases hl : (names.zip args).lookup x with
            | none =>
                rw [hl] at hv
                cases hv
                exact hr.elim
            | some w =>
                rw [hl] at hv
                cases hv
                obtain ⟨before, after, hzip, -⟩ := List.lookup_eq_some_iff.mp hl
                refine hs.2 a (hargs a ⟨w, ?_, hr⟩)
                have hmem : (x, w) ∈ names.zip args := by
                  rw [hzip]
                  exact List.mem_append_right _ List.mem_cons_self
                exact (List.of_mem_zip hmem).2
          · exact hs.1 a (.inr ⟨_, v, hv, hr⟩)
  · rcases ha with ha | ⟨x, hx, rfl⟩
    · exact mono a (hs.2 a ha)
    · simp [Assigned, hx]

/-- What the analysis proves of one function: a use is a parameter, a global it counts on, or assigned. -/
def FunctionsSafe (prog : Hir) : Prop :=
  ∀ f names body, findFunction f (rootChain prog) = some (names, body) →
    ∀ es ev rest o, Runs body (es ++ ev :: rest) o → ∀ v ∈ ev.uses,
      v ∈ names ∨ v ∈ globalNames (rootChain prog) ∨ Defined es v

/-- Calls keep the invariant in runs whose entries are covered; the induction is on the depth of calls. -/
theorem callsYield_callUser {host : Host H V} (laws : HostLaws host R) (hsafe : FunctionsSafe prog) :
    ∀ clock, CallsYield (Covered prog) R (callUser host prog clock) := by
  intro clock
  induction clock with
  | zero => intro f args A _; exact Yields.throw
  | succ clock ih =>
      intro f args A hargs
      unfold callUser
      cases hf : findFunction f (rootChain prog) with
      | none => exact Yields.throw
      | some p =>
      obtain ⟨names, body⟩ := p
      refine Guarded.bind (guarded_watchEntry hf) fun _ => ?_
      refine Guarded.bind (guarded_enterFrame fun a ha => .inl (hargs a ha)) fun frame => ?_
      -- The body knows its parameters, and the globals it may use before assigning them.
      let ctx : Ctx H V :=
        { host, globals := globalNames (rootChain prog), structs := structNames (rootChain prog)
          params := names, frame, clock, call := callUser host prog clock }
      let K : String → Prop := fun v => v ∈ names ∨ (v ∈ ctx.globals ∧ v ∉ names ∧ Exposed body v)
      have hbody : SafeAfter K [] body := by
        intro es ev rest o hr v hv
        by_cases hd : Defined es v
        · exact .inr hd
        · by_cases hn : v ∈ names
          · exact .inl (.inl hn)
          · rcases hsafe f names body hf es ev rest o hr v hv with h | h | h
            · exact absurd h hn
            · exact .inl (.inr ⟨h, hn, es, ev, rest, o, hr, hv, hd⟩)
            · exact absurd h hd
      have hfollow : Follows (Covered prog) ctx R body (runSeq (execs ctx body)) := follows_execs laws ih body
      refine Guarded.bind ((@hfollow K A [] hbody).conseq (fun s hs => hs.weaken fun a ha => ?_) fun _ _ h => h) fun flow => ?_
      · rcases ha with ha | ⟨v, (hv | ⟨hg, hn, hx⟩) | ⟨e, he, -⟩, rfl⟩
        · exact .inl (.inl ha)
        · refine .inr ⟨v, hv, ?_⟩
          simp [ctx, Ctx.addr, hv]
        · refine .inl (.inr ⟨v, hg, hn, hx, ?_⟩)
          have hg' : v ∈ globalNames (rootChain prog) := hg
          simp [ctx, Ctx.addr, hg', hn]
        · cases he
      · cases flow with
        | returned v =>
            refine Guarded.pure ?_
            rintro s ⟨es, -, hs⟩
            exact hs.weaken fun a ha => ha.imp_left .inl
        | normal =>
            refine Guarded.pure ?_
            rintro s ⟨es, -, hs⟩
            exact hs.weaken fun a ha => ha.elim (fun h => .inl (.inl h)) fun h => h.elim
        | breakLoop => exact Guarded.throw
        | continueLoop => exact Guarded.throw

end Calls

/-! ## Whole runs -/

/-- **Initialisation safety, relative to the order of calls.** In every run of an accepted program, whatever
    the clock: if each time a function was entered the globals unassigned at that moment were none that it may
    use before assigning them, then no storage was read before it was assigned. -/
theorem compileMode_reads_assigned {H V : Type} (host : Host H V) (R : HostRefs H V) (laws : HostLaws host R)
    (heap : H) (hheap : ∀ a, ¬ R.heap heap a) {ast : AstNode} {ir : Hir}
    (haccept : compileMode host.float ast = some ir) (clock : Nat)
    (hcovered : ∀ entry ∈ (finalState (run host heap ir clock)).entries, Covered ir entry) :
    (finalState (run host heap ir clock)).unassignedReads = [] := by
  obtain ⟨cfg, hbuild, hok⟩ := compileMode_eq_some haccept
  have assigned := fun {i body} => @definitelyAssigned ir cfg hbuild (simulates_of_build hbuild) hok i body
  have hroot : rootChain ir = ir.rootBody := by
    cases ir with
    | one i op a n => cases op <;> rfl
    | _ => rfl
  have hfun : FunctionsSafe ir := by
    intro f names body hf es ev rest o hr v hv
    obtain ⟨i, hi, hfacts⟩ := entry_of_findFunction hf
    rcases assigned hi hr v hv with h | h
    · rw [hfacts, List.mem_append] at h
      rcases h with h | h
      · rw [hroot]
        exact .inr (.inl (mem_globalNames h))
      · exact .inl h
    · exact .inr (.inr h)
  have hmain : SafeAfter (fun _ => False) [] (rootChain ir) := by
    intro es ev rest o hr v hv
    rw [hroot] at hr
    rcases assigned (i := 0) rfl hr v hv with h | h
    · cases h
    · exact .inr h
  have hfollow : Follows (Covered ir) (mainCtx host ir clock) R (rootChain ir)
      (runSeq (execs (mainCtx host ir clock) (rootChain ir))) :=
    follows_execs laws (callsYield_callUser laws hfun clock) (rootChain ir)
  refine (@hfollow _ (fun _ => False) [] hmain).reads (initialState heap) ⟨?_, ?_⟩ hcovered
  · rintro a (ha | ⟨b, v, hv, -⟩)
    · exact absurd ha (hheap a)
    · cases hv
  · rintro a (ha | ⟨v, ha | ⟨e, he, -⟩, rfl⟩)
    · exact ha.elim
    · exact ha.elim
    · cases he

/-- The runtime for small programs holds no references. -/
def noHostRefs : HostRefs Unit String where
  boxed _ _ := False
  heap _ _ := False

theorem textHost_laws : HostLaws textHost noHostRefs where
  string := by
    rintro text h v h' ⟨⟩ a (ha | ha) <;> exact ha.elim
  arrayNew := by rintro h v h' ⟨⟩
  arrayPush := by rintro a v h w h' ⟨⟩
  arrayGet := by rintro a i h w h' ⟨⟩
  arraySet := by rintro a i v h w h' ⟨⟩
  objectGet := by rintro o x h w h' ⟨⟩
  objectSet := by rintro o x v h w h' ⟨⟩
  structNew := by rintro name h w h' ⟨⟩
  unary := by rintro op v h w h' ⟨⟩
  binary := by rintro op v w h u h' ⟨⟩
  special := by rintro name f ⟨⟩
  builtin := by
    intro name f hf args
    -- The only one is `len`, which touches nothing.
    unfold textHost at hf
    simp only at hf
    split at hf
    · cases hf
      have pureCase : ∀ n : Int64, LeavesStorage noHostRefs args (Value.Refers noHostRefs)
          (pure (.int n) : M Unit String (Value String)) := by
        intro n s
        refine ⟨rfl, rfl, ?_⟩
        rintro r s' ⟨⟩
        exact ⟨fun _ ha => ha, fun a ha => ha.elim (fun h => h.elim) .inl⟩
      beta_reduce
      split
      · exact pureCase _
      · intro s
        refine ⟨rfl, rfl, ?_⟩
        rintro r s' ⟨⟩
    · cases hf
  asm := by
    intro text frame s
    refine ⟨rfl, rfl, ?_⟩
    rintro r s' ⟨⟩
    exact ⟨fun _ ha => ha, fun a ha => ha.elim (fun h => h.elim) .inl⟩

/-- `fun f() { print(g) }` -/
def printsGlobal (next : AstNode) : AstNode :=
  .one (.functionDeclaration ⟨"f", [], none, false⟩) (.one .printStatement (.leaf (.variable "g") .null) .null) next

def declaresGlobal (next : AstNode) : AstNode :=
  .one (.variableDeclaration "g" none false) (.leaf (.integerLiteral 1) .null) next

/-- `g = 1  fun f() { print(g) }  f()` -/
def callBehind : AstNode :=
  .one .program (declaresGlobal (printsGlobal (.one (.functionCall "f") .null .null))) .null

/-- What the backend is handed for it. -/
def callBehindIr : Hir := (compileMode noFloats callBehind).getD .nil

/-- `f()  g = 1  fun f() { print(g) }` -/
def callInFront : AstNode :=
  .one .program (.one (.functionCall "f") .null (declaresGlobal (printsGlobal .null))) .null

/-- What compiling and running the two programs gives. -/
theorem globalCalls_run : compileMode textHost.float callBehind = some callBehindIr ∧
    (finalState (run textHost () callBehindIr 1)).entries = [("f", [])] ∧
    (compileMode textHost.float callInFront).any
      (fun ir => !(finalState (run textHost () ir 1)).unassignedReads.isEmpty) = true := by
  decide +kernel

theorem callBehind_reads_assigned : compileMode textHost.float callBehind = some callBehindIr ∧
    (finalState (run textHost () callBehindIr 1)).entries = [("f", [])] ∧
    (finalState (run textHost () callBehindIr 1)).unassignedReads = [] := by
  obtain ⟨haccept, hentries, -⟩ := globalCalls_run
  refine ⟨haccept, hentries, compileMode_reads_assigned textHost noHostRefs textHost_laws () (fun _ h => h)
    haccept 1 ?_⟩
  intro entry hentry names body _ x hx
  rw [hentries, List.mem_singleton] at hentry
  rw [hentry] at hx
  cases hx

/-- Accepted, and yet the body of `f` reads `g` before anything is stored there. -/
theorem callInFront_reads_unassigned : ∃ ir, compileMode textHost.float callInFront = some ir ∧
    (finalState (run textHost () ir 1)).unassignedReads ≠ [] := by
  obtain ⟨ir, haccept, hreads⟩ := (Option.any_eq_true _ _).mp globalCalls_run.2.2
  refine ⟨ir, haccept, fun h => ?_⟩
  rw [h] at hreads
  cases hreads

end Vnt
