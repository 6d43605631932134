import Vnt.Cfg.Regions
import Vnt.Front.Typecheck
import Vnt.Lib.Dataflow
import Vnt.Lib.Prog

/-!
# `Cfg.Assigned` — is every variable assigned before it is read?

A must-analysis over the graph: the facts are variables that are assigned on every path. Function entries
start from their parameters and from every top-level declaration with an initializer; the entry of the
top level starts from nothing.
-/

namespace Vnt

open Lib

/-! ## Variables and their uses -/

/-- The names `collect_variables` takes from one opcode. -/
def HirLeaf.variableNames : HirLeaf → List String
  | .variable x => [x]
  | _ => []

def HirOne.variableNames : HirOne → List String
  | .variableDecl x _ | .reassign x _ => [x]
  | .function _ names => names
  | _ => []

/-- The nodes of the tree with the variables they name. -/
@[simp] def Hir.namingNodes : Hir → List (Nat × List String)
  | .nil => []
  | .leaf i op n => (i, op.variableNames) :: n.namingNodes
  | .one i op a n => (i, op.variableNames) :: (a.namingNodes ++ n.namingNodes)
  | .two i _ a b n => (i, []) :: (a.namingNodes ++ (b.namingNodes ++ n.namingNodes))
  | .ifNode i c t e n =>
      (i, []) :: (c.namingNodes ++ (t.namingNodes ++ (e.namingNodes ++ n.namingNodes)))

/-- `collect_variables`: every name once, in the order of the arena. -/
def collectVariables (ir : Hir) : List String :=
  ((ir.namingNodes.insertionSort fun p q => p.1 ≤ q.1).flatMap Prod.snd).eraseDups

/-- `collect_expression_reads`, along a chain. -/
def collectExpressionReads : Hir → List String
  | .nil => []
  | .leaf _ (.variable x) n => x :: collectExpressionReads n
  | .leaf _ _ n => collectExpressionReads n
  | .one _ _ a n => collectExpressionReads a ++ collectExpressionReads n
  | .two _ _ a b n => collectExpressionReads a ++ (collectExpressionReads b ++ collectExpressionReads n)
  | .ifNode _ c t e n =>
      collectExpressionReads c ++ (collectExpressionReads t ++ (collectExpressionReads e ++ collectExpressionReads n))

/-- The variables an instruction reads before it writes anything, and those it writes: the `switch` of
    `collect_block_effects`. -/
def instructionEffects : Hir → List String × List String
  | .one _ (.variableDecl x _) a _ =>
      if a = .nil then ([], []) else (collectExpressionReads a.head, [x])
  | .one _ (.reassign x _) a _ => (collectExpressionReads a.head, [x])
  | .one _ .print a _ => (collectExpressionReads a.head, [])
  | .one _ .returnNode a _ => (collectExpressionReads a.head, [])
  | .two _ .assign (.leaf _ (.variable x) _) b _ => (collectExpressionReads b.head, [x])
  | .two _ .assign a b _ => (collectExpressionReads a.head ++ collectExpressionReads b.head, [])
  | h => (collectExpressionReads h.head, [])

/-- `collect_block_effects`: the uses. -/
def VntCfgBlock.uses (b : VntCfgBlock) : List String :=
  (match b.condition with
    | some c => collectExpressionReads c.head
    | none => []) ++
  (match b.instruction with
    | some h => (instructionEffects h).1
    | none => [])

/-- `collect_block_effects`: the definitions. -/
def VntCfgBlock.defs (b : VntCfgBlock) : List String :=
  match b.instruction with
  | some h => (instructionEffects h).2
  | none => []

/-- The top-level declarations with an initializer. -/
def initializedGlobals : Hir → List String
  | .nil => []
  | .one _ (.variableDecl x _) a n => if a = .nil then initializedGlobals n else x :: initializedGlobals n
  | .leaf _ _ n => initializedGlobals n
  | .one _ _ _ n => initializedGlobals n
  | .two _ _ _ _ n => initializedGlobals n
  | .ifNode _ _ _ _ n => initializedGlobals n

/-! ## The analysis -/

/-- `seed`: what is taken as assigned at the start of an entry block. Every entry but the first copies the
    globals over it, then the parameters of the functions entered there are added. -/
def entrySeed (ir : Hir) (cfg : VntCfg) (b : Nat) : Option (List String) :=
  if b ∈ cfg.entries then
    some ((if b ∈ cfg.entries.tail then initializedGlobals ir.rootBody else []) ++
      ((ir.arenaFunctions.zip cfg.entries.tail).filter (·.2 == b)).flatMap fun p => p.1.names)
  else none

/-- The instance of the analysis. -/
def assignmentAnalysis (ir : Hir) (cfg : VntCfg) : Must String where
  count := cfg.blocks.length
  facts := collectVariables ir
  seed := entrySeed ir cfg
  preds := fun b => (List.range cfg.blocks.length).filter fun p =>
    (cfg.blocks[p]?.map VntCfgBlock.successors).getD [] |>.contains b
  gen := fun p => (cfg.blocks[p]?.map VntCfgBlock.defs).getD []

/-- Where `needle` first occurs, what follows it. -/
def afterFirst (needle : List Char) : List Char → Option (List Char)
  | [] => if needle.isEmpty then some [] else none
  | c :: cs => if needle.isPrefixOf (c :: cs) then some ((c :: cs).drop needle.length) else afterFirst needle cs

/-- `source_name_for_diagnostic`: the name inside a storage key. -/
def sourceNameForDiagnostic (key : String) : String :=
  match (afterFirst "__vnt_symbol_".toList key.toList).bind (afterFirst ['_']) with
  | some name => String.ofList name
  | none => key

/-- `vnt_cfg_check_definite_assignment`, with the diagnostic of a rejected program (a buffer of 256). The
    first offending block decides, and in it the first variable. -/
def vntCfgCheckDefiniteAssignment (ir : Hir) (cfg : VntCfg) : Except String Unit :=
  if vntIrValidate ir && vntCfgValidate cfg then
    let ins := (assignmentAnalysis ir cfg).solve
    match (cfg.blocks.zip ins).findSome? fun (block, assigned) =>
        (collectVariables ir).find? fun v => block.uses.contains v && !assigned.contains v with
    | some v =>
        throw (snprintf 256 s!"variable '{sourceNameForDiagnostic v}' may be read before initialization")
    | none => pure ()
  else throw "invalid HIR or CFG for dataflow analysis"

/-!
## What an accepted graph guarantees

The solution of the analysis at a block holds on every path to it (`solution_on_path`), and through the
simulation on every structured run: `definitelyAssigned`. What a body takes as assigned when it is entered
(`entryFacts`) is an assumption of the analysis, not something it checks.
-/

/-! ## What the analysis proves about paths -/

/-- The variables an event reads. -/
def CfgEvent.uses : CfgEvent → List String
  | .statement node => (instructionEffects node).1
  | .test c _ => collectExpressionReads c.head

/-- The variables an event assigns. -/
def CfgEvent.defs : CfgEvent → List String
  | .statement node => (instructionEffects node).2
  | .test _ _ => []

/-- Some event of the sequence assigns `v`. -/
def Defined (es : List CfgEvent) (v : String) : Prop := ∃ e ∈ es, v ∈ e.defs

theorem defined_append {es es' : List CfgEvent} {v : String} :
    Defined (es ++ es') v ↔ Defined es v ∨ Defined es' v := by
  simp only [Defined, List.mem_append, or_and_right, exists_or]

/-- An edge shows at most one event, with the uses and all the definitions of its block. -/
theorem VntCfgBlock.Steps.effects {count exitBlock i t : Nat} {block : VntCfgBlock} {es : List CfgEvent}
    (hv : validateBlock count exitBlock i block = true) (h : block.Steps es t) :
    es.length ≤ 1 ∧ (∀ ev ∈ es, ∀ v ∈ ev.uses, v ∈ block.uses) ∧ ∀ v ∈ block.defs, Defined es v := by
  unfold VntCfgBlock.Steps at h
  unfold validateBlock at hv
  rw [Bool.and_eq_true] at hv
  have hshape := hv.2
  cases hterm : block.terminator with
  | branch =>
      simp only [hterm, Bool.and_eq_true, Option.isNone_iff_eq_none] at h hshape
      obtain ⟨c, outcome, hc, htest, -⟩ := h
      refine ⟨?_, ?_, ?_⟩
      · unfold Tests at htest
        split at htest
        · simp [htest.2]
        · simp [htest]
      · intro ev hev v hv
        unfold Tests at htest
        split at htest
        · simp [htest.2] at hev
        · rw [htest, List.mem_singleton] at hev
          subst hev
          simp only [VntCfgBlock.uses, hc, List.mem_append]
          exact .inl hv
      · simp [VntCfgBlock.defs, hshape.2]
  | exit => simp [hterm] at h
  | _ =>
      simp only [hterm] at h
      obtain ⟨-, rfl⟩ := h
      refine ⟨?_, ?_, ?_⟩
      · cases block.instruction <;> simp
      · intro ev hev v hv
        simp only [List.mem_map, Option.mem_toList] at hev
        obtain ⟨node, hnode, rfl⟩ := hev
        simp only [VntCfgBlock.uses, hnode, List.mem_append]
        exact .inr hv
      · intro v hv
        unfold VntCfgBlock.defs at hv
        split at hv
        · rename_i node hnode
          exact ⟨.statement node, by simp [hnode], hv⟩
        · cases hv

/-- The last edge of a path. -/
theorem Path.unsnoc {blocks : List VntCfgBlock} {k b b' : Nat} {es : List CfgEvent}
    (hp : Path blocks (k + 1) b es b') : ∃ m block es₁ es₂, Path blocks k b es₁ m ∧
      blocks[m]? = some block ∧ block.Steps es₂ b' ∧ es = es₁ ++ es₂ := by
  induction k generalizing b es with
  | zero =>
      cases hp with
      | @step _ _ _ _ block es₁ es₂ at_ edge rest =>
          cases rest
          exact ⟨b, block, [], es₁, .refl b, at_, edge, by simp⟩
  | succ k ih =>
      cases hp with
      | @step _ _ m _ block es₁ es₂ at_ edge rest =>
          obtain ⟨m', block', es₃, es₄, hp, hat, hedge, rfl⟩ := ih rest
          exact ⟨m', block', es₁ ++ es₃, es₄, .step at_ edge hp, hat, hedge, (List.append_assoc ..).symm⟩

/-- The point of a path at which one of its events happens. -/
theorem Path.split {blocks : List VntCfgBlock} (hone : ∀ {b t : Nat} {block : VntCfgBlock}
      {es : List CfgEvent}, blocks[b]? = some block → block.Steps es t → es.length ≤ 1) {k b b' : Nat} {all : List CfgEvent}
    (hp : Path blocks k b all b') : ∀ {es rest : List CfgEvent} {ev : CfgEvent}, all = es ++ ev :: rest →
      ∃ k' m block t, Path blocks k' b es m ∧ blocks[m]? = some block ∧ block.Steps [ev] t := by
  induction hp with
  | refl b => intro es rest ev h; simp at h
  | @step k b m b' block es₁ es₂ at_ edge rest' ih =>
      intro es rest ev h
      have hlen := hone at_ edge
      cases es₁ with
      | nil =>
          obtain ⟨k', m', block', t, hp, hat, hedge⟩ := ih h
          exact ⟨_, m', block', t, .step at_ edge hp, hat, hedge⟩
      | cons x es₁ =>
          have hnil : es₁ = [] := by
            apply List.eq_nil_of_length_eq_zero
            simp only [List.length_cons] at hlen
            omega
          subst hnil
          cases es with
          | nil =>
              simp only [List.cons_append, List.nil_append, List.cons.injEq] at h
              obtain ⟨rfl, -⟩ := h
              exact ⟨0, b, block, m, .refl b, at_, edge⟩
          | cons y es =>
              simp only [List.cons_append, List.nil_append, List.cons.injEq] at h
              obtain ⟨rfl, h⟩ := h
              obtain ⟨k', m', block', t, hp, hat, hedge⟩ := ih h
              exact ⟨_, m', block', t, .step at_ edge hp, hat, hedge⟩

/-- What body `i` may take as assigned when it is entered. -/
def entryFacts (ir : Hir) : Nat → List String
  | 0 => []
  | i + 1 => initializedGlobals ir.rootBody ++ ((ir.arenaFunctions[i]?.map FunctionNode.names).getD [])

/-! ## Every variable that is used is known -/

/-- A node of the tree names `v`. -/
def Hir.Names (h : Hir) (v : String) : Prop := ∃ p ∈ h.namingNodes, v ∈ p.2

theorem mem_collectVariables {ir : Hir} {v : String} : v ∈ collectVariables ir ↔ ir.Names v := by
  unfold collectVariables Hir.Names
  rw [List.mem_eraseDups, List.mem_flatMap]
  simp only [List.mem_insertionSort]

@[simp] theorem names_leaf {i : Nat} {op : HirLeaf} {n : Hir} {v : String} :
    (Hir.leaf i op n).Names v ↔ v ∈ op.variableNames ∨ n.Names v := by
  simp [Hir.Names]

@[simp] theorem names_one {i : Nat} {op : HirOne} {a n : Hir} {v : String} :
    (Hir.one i op a n).Names v ↔ v ∈ op.variableNames ∨ a.Names v ∨ n.Names v := by
  simp [Hir.Names, or_and_right, exists_or]

@[simp] theorem names_two {i : Nat} {op : HirTwo} {a b n : Hir} {v : String} :
    (Hir.two i op a b n).Names v ↔ a.Names v ∨ b.Names v ∨ n.Names v := by
  simp [Hir.Names, or_and_right, exists_or]

@[simp] theorem names_ifNode {i : Nat} {c t e n : Hir} {v : String} :
    (Hir.ifNode i c t e n).Names v ↔ c.Names v ∨ t.Names v ∨ e.Names v ∨ n.Names v := by
  simp [Hir.Names, or_and_right, exists_or]

theorem names_of_reads {h : Hir} {v : String} : v ∈ collectExpressionReads h → h.Names v := by
  induction h with
  | nil => intro hv; cases hv
  | leaf i op n hn =>
      intro hv
      rw [names_leaf]
      cases op with
      | «variable» x => exact (List.mem_cons.mp hv).imp (fun h => by simp [HirLeaf.variableNames, h]) hn
      | _ => exact .inr (hn hv)
  | one i op a n ha hn =>
      intro hv
      rw [names_one]
      exact .inr ((List.mem_append.mp hv).imp ha hn)
  | two i op a b n ha hb hn =>
      intro hv
      simp only [collectExpressionReads, List.mem_append] at hv
      rw [names_two]
      exact hv.imp ha (Or.imp hb hn)
  | ifNode i c t e n hc ht he hn =>
      intro hv
      simp only [collectExpressionReads, List.mem_append] at hv
      rw [names_ifNode]
      exact hv.imp hc (Or.imp ht (Or.imp he hn))

theorem not_names_nil {P : Prop} {v : String} (h : Hir.nil.Names v) : P := by
  obtain ⟨_, h, _⟩ := h
  cases h

theorem Hir.Names.head {h : Hir} {v : String} (hv : h.head.Names v) : h.Names v := by
  cases h with
  | nil => exact hv
  | leaf i op n =>
      rw [Hir.head, names_leaf] at hv
      rw [names_leaf]
      exact hv.imp_right not_names_nil
  | one i op a n =>
      rw [Hir.head, names_one] at hv
      rw [names_one]
      exact hv.imp_right (Or.imp_right not_names_nil)
  | two i op a b n =>
      rw [Hir.head, names_two] at hv
      rw [names_two]
      exact hv.imp_right (Or.imp_right not_names_nil)
  | ifNode i c t e n =>
      rw [Hir.head, names_ifNode] at hv
      rw [names_ifNode]
      exact hv.imp_right (Or.imp_right (Or.imp_right not_names_nil))

theorem names_of_reads_head {h : Hir} {v : String} (hv : v ∈ collectExpressionReads h.head) : h.Names v :=
  (names_of_reads hv).head

theorem names_of_instructionEffects {h : Hir} {v : String} (hv : v ∈ (instructionEffects h).1) : h.Names v := by
  unfold instructionEffects at hv
  split at hv
  · split at hv
    · cases hv
    · rw [names_one]; exact .inr (.inl (names_of_reads_head hv))
  · rw [names_one]; exact .inr (.inl (names_of_reads_head hv))
  · rw [names_one]; exact .inr (.inl (names_of_reads_head hv))
  · rw [names_one]; exact .inr (.inl (names_of_reads_head hv))
  · rw [names_two]; exact .inr (.inl (names_of_reads_head hv))
  · rw [names_two]
    rcases List.mem_append.mp hv with hv | hv
    · exact .inl (names_of_reads_head hv)
    · exact .inr (.inl (names_of_reads_head hv))
  · exact names_of_reads_head hv

/-- A run uses only variables of the code it runs. -/
theorem Runs.names {h : Hir} {es : List CfgEvent} {o : Outcome} (hr : Runs h es o) :
    ∀ ev ∈ es, ∀ v ∈ ev.uses, h.Names v := by
  have test : ∀ {c : Hir} {outcome : Bool} {es : List CfgEvent}, Tests c.head outcome es →
      ∀ ev ∈ es, ∀ v ∈ ev.uses, c.Names v := by
    intro c outcome es ht ev hev v hv
    unfold Tests at ht
    split at ht
    · simp [ht.2] at hev
    · rw [ht, List.mem_singleton] at hev
      subst hev
      exact (names_of_reads_head hv).head
  -- What the events of two parts use, the parts name.
  have both : ∀ {es es' : List CfgEvent} {P : String → Prop}, (∀ ev ∈ es, ∀ v ∈ ev.uses, P v) →
      (∀ ev ∈ es', ∀ v ∈ ev.uses, P v) → ∀ ev ∈ es ++ es', ∀ v ∈ ev.uses, P v := by
    intro es es' P h h' ev hev
    rcases List.mem_append.mp hev with hev | hev
    · exact h ev hev
    · exact h' ev hev
  have single : ∀ {node : Hir} {es : List CfgEvent} {P : String → Prop}, (∀ v, node.Names v → P v) →
      (∀ ev ∈ es, ∀ v ∈ ev.uses, P v) → ∀ ev ∈ CfgEvent.statement node :: es, ∀ v ∈ ev.uses, P v := by
    intro node es P h h' ev hev v hv
    rcases List.mem_cons.mp hev with rfl | hev
    · exact h v (names_of_instructionEffects hv)
    · exact h' ev hev v hv
  have weaken : ∀ {es : List CfgEvent} {P Q : String → Prop}, (∀ v, P v → Q v) →
      (∀ ev ∈ es, ∀ v ∈ ev.uses, P v) → ∀ ev ∈ es, ∀ v ∈ ev.uses, Q v :=
    fun hPQ h ev hev v hv => hPQ v (h ev hev v hv)
  induction hr with
  | nil => simp
  | cut h => simp
  | leaf _ _ ih =>
      refine single (fun v hv => Hir.Names.head hv) (weaken (fun v hv => ?_) ih)
      rw [names_leaf]
      exact .inr hv
  | one _ _ ih =>
      refine single (fun v hv => Hir.Names.head hv) (weaken (fun v hv => ?_) ih)
      rw [names_one]
      exact .inr (.inr hv)
  | two _ _ ih =>
      refine single (fun v hv => Hir.Names.head hv) (weaken (fun v hv => ?_) ih)
      rw [names_two]
      exact .inr (.inr hv)
  | struct _ ih => exact weaken (fun v hv => names_leaf.mpr (.inr hv)) ih
  | function _ ih => exact weaken (fun v hv => names_one.mpr (.inr (.inr hv))) ih
  | break_ => exact single (fun v hv => Hir.Names.head hv) (by simp)
  | continue_ => exact single (fun v hv => Hir.Names.head hv) (by simp)
  | return_ => exact single (fun v hv => Hir.Names.head hv) (by simp)
  | program _ _ iha ihn =>
      exact both (weaken (fun v hv => names_one.mpr (.inr (.inl hv))) iha)
        (weaken (fun v hv => names_one.mpr (.inr (.inr hv))) ihn)
  | programOut _ _ iha => exact weaken (fun v hv => names_one.mpr (.inr (.inl hv))) iha
  | @arm i c t e n outcome es es' es'' o htest _ _ ihb ihn =>
      have hb : ∀ v, (if outcome then t else e).Names v → (Hir.ifNode i c t e n).Names v := by
        intro v hv
        rw [names_ifNode]
        cases outcome
        · exact .inr (.inr (.inl hv))
        · exact .inr (.inl hv)
      refine both (weaken (fun v hv => names_ifNode.mpr (.inl hv)) (test htest)) (both (weaken hb ihb) ?_)
      exact weaken (fun v hv => names_ifNode.mpr (.inr (.inr (.inr hv)))) ihn
  | @armOut i c t e n outcome es es' o htest _ _ ihb =>
      have hb : ∀ v, (if outcome then t else e).Names v → (Hir.ifNode i c t e n).Names v := by
        intro v hv
        rw [names_ifNode]
        cases outcome
        · exact .inr (.inr (.inl hv))
        · exact .inr (.inl hv)
      exact both (weaken (fun v hv => names_ifNode.mpr (.inl hv)) (test htest)) (weaken hb ihb)
  | done htest _ ihn =>
      exact both (weaken (fun v hv => names_two.mpr (.inl hv)) (test htest))
        (weaken (fun v hv => names_two.mpr (.inr (.inr hv))) ihn)
  | again htest _ _ _ ihb ihr =>
      exact both (weaken (fun v hv => names_two.mpr (.inl hv)) (test htest))
        (both (weaken (fun v hv => names_two.mpr (.inr (.inl hv))) ihb) ihr)
  | left htest _ _ ihb ihn =>
      exact both (weaken (fun v hv => names_two.mpr (.inl hv)) (test htest))
        (both (weaken (fun v hv => names_two.mpr (.inr (.inl hv))) ihb)
          (weaken (fun v hv => names_two.mpr (.inr (.inr hv))) ihn))
  | loopOut htest _ _ ihb =>
      exact both (weaken (fun v hv => names_two.mpr (.inl hv)) (test htest))
        (weaken (fun v hv => names_two.mpr (.inr (.inl hv))) ihb)

theorem names_of_functionNodes {h : Hir} {f : FunctionNode} (hf : f ∈ h.functionNodes) {v : String}
    (hv : f.body.Names v) : h.Names v := by
  induction h with
  | nil => cases hf
  | leaf i op n hn => exact names_leaf.mpr (.inr (hn hf))
  | one i op a n ha hn =>
      rw [names_one]
      cases op with
      | function name names =>
          rcases List.mem_cons.mp hf with rfl | hf
          · exact .inr (.inl hv)
          · exact .inr ((List.mem_append.mp hf).imp ha hn)
      | _ => exact .inr ((List.mem_append.mp hf).imp ha hn)
  | two i op a b n ha hb hn =>
      simp only [Hir.functionNodes, List.mem_append] at hf
      exact names_two.mpr (hf.imp ha (Or.imp hb hn))
  | ifNode i c t e n hc ht he hn =>
      simp only [Hir.functionNodes, List.mem_append] at hf
      exact names_ifNode.mpr (hf.imp hc (Or.imp ht (Or.imp he hn)))

theorem names_of_bodies {ir body : Hir} (hb : body ∈ ir.bodies) {v : String} (hv : body.Names v) :
    ir.Names v := by
  rcases List.mem_cons.mp hb with rfl | hb
  · unfold Hir.rootBody at hv
    split at hv
    · exact names_one.mpr (.inr (.inl hv))
    · exact not_names_nil hv
  · obtain ⟨f, hf, rfl⟩ := List.mem_map.mp hb
    exact names_of_functionNodes (Hir.mem_arenaFunctions.mp hf) hv

section Accepted

variable {ir : Hir} {cfg : VntCfg}

theorem exitBlock_is_exitNode (h : vntCfgBuild ir = some cfg) :
    cfg.blocks[cfg.exitBlock]? = some exitNode := by
  obtain ⟨raw, hraw, hprune, -⟩ := vntCfgBuild_ok h
  obtain ⟨marked, kept, hm, hmem, hexit, -, hexit', -, -, hat⟩ := pruneUnreachableBlocks_ok hprune
  simp only [buildBlocks, bind, Option.bind_eq_some_iff, Option.some.injEq] at hraw
  obtain ⟨⟨blocks, entries⟩, hb, rfl⟩ := hraw
  obtain ⟨⟨new, rfl⟩, -, -⟩ := buildEntries_built _ hb
  rw [hexit', hat _ hexit]
  rfl

theorem validateBlock_of_build (h : vntCfgBuild ir = some cfg) {b : Nat} {block : VntCfgBlock}
    (hat : cfg.blocks[b]? = some block) : validateBlock cfg.blocks.length cfg.exitBlock b block = true := by
  obtain ⟨-, -, -, hv⟩ := vntCfgBuild_ok h
  simp only [vntCfgValidate, Bool.and_eq_true, List.all_eq_true] at hv
  exact hv.2 (block, b) (List.mem_zipIdx_iff_getElem?.mpr hat)

/-- The seed of an entry block is that of the one body entered there. -/
theorem mem_entryFacts (h : vntCfgBuild ir = some cfg) {i b : Nat} {s : List String}
    (hi : cfg.entries[i]? = some b) (hb : b ≠ cfg.exitBlock) (hs : entrySeed ir cfg b = some s) {v : String}
    (hv : v ∈ s) : v ∈ entryFacts ir i := by
  unfold entrySeed at hs
  split at hs
  · cases hs
    -- Whatever else is entered in this block is entered as the same body.
    have same : ∀ {j : Nat}, cfg.entries.tail[j]? = some b → i = j + 1 := by
      intro j hj
      rw [List.getElem?_tail] at hj
      exact (entry_unique h hi hj (.refl b)).resolve_left hb
    rcases List.mem_append.mp hv with hv | hv
    · split at hv
      · rename_i htail
        obtain ⟨j, hj⟩ := List.getElem?_of_mem htail
        rw [same hj]
        exact List.mem_append_left _ hv
      · cases hv
    · obtain ⟨⟨f, c⟩, hp, hv⟩ := List.mem_flatMap.mp hv
      obtain ⟨hp, hc⟩ := List.mem_filter.mp hp
      obtain ⟨j, hj⟩ := List.getElem?_of_mem hp
      rw [List.getElem?_zip_eq_some] at hj
      have hc' : c = b := by simpa using hc
      rw [same (hc' ▸ hj.2)]
      refine List.mem_append_right _ ?_
      rw [hj.1]
      exact hv
  · cases hs

/-- What the solution claims at a block holds on every path to it. -/
theorem solution_on_path (h : vntCfgBuild ir = some cfg) {i e : Nat} (hi : cfg.entries[i]? = some e) :
    ∀ (k : Nat) {b : Nat} {es : List CfgEvent}, Path cfg.blocks k e es b → b ≠ cfg.exitBlock →
      b < cfg.blocks.length → ∀ {v : String}, v ∈ (assignmentAnalysis ir cfg).solve[b]?.getD [] →
        v ∈ entryFacts ir i ∨ Defined es v := by
  obtain ⟨hlen, heq⟩ := (assignmentAnalysis ir cfg).solve_spec
  intro k
  induction k with
  | zero =>
      intro b es hp hb hlt v hv
      cases hp
      have hget := List.getElem?_eq_getElem (hlen.symm ▸ hlt : e < (assignmentAnalysis ir cfg).solve.length)
      rw [hget, Option.getD_some, heq e hlt _ hget] at hv
      have hin : e ∈ cfg.entries := List.mem_of_getElem? hi
      cases hseed : entrySeed ir cfg e with
      | none => simp [entrySeed, hin] at hseed
      | some s =>
          simp only [Must.meet, assignmentAnalysis, hseed, List.mem_filter, decide_eq_true_eq] at hv
          exact .inl (mem_entryFacts h hi hb hseed hv.2)
  | succ k ih =>
      intro b es hp hb hlt v hv
      have hget := List.getElem?_eq_getElem (hlen.symm ▸ hlt : b < (assignmentAnalysis ir cfg).solve.length)
      rw [hget, Option.getD_some, heq b hlt _ hget] at hv
      cases hseed : entrySeed ir cfg b with
      | some s =>
          simp only [Must.meet, assignmentAnalysis, hseed, List.mem_filter, decide_eq_true_eq] at hv
          have hin : b ∈ cfg.entries := by
            by_contra hn
            simp [entrySeed, hn] at hseed
          obtain ⟨j, hj⟩ := List.getElem?_of_mem hin
          have hij := (entry_unique h hi hj hp).resolve_left hb
          exact .inl (mem_entryFacts h (hij ▸ hj) hb hseed hv.2)
      | none =>
          obtain ⟨m, block, es₁, es₂, hp₁, hat, hedge, rfl⟩ := hp.unsnoc
          have hmlt : m < cfg.blocks.length := (List.getElem?_eq_some_iff.mp hat).1
          have hmexit : m ≠ cfg.exitBlock := by
            rintro rfl
            rw [exitBlock_is_exitNode h] at hat
            cases hat
            exact hedge.elim
          have hpred : m ∈ (assignmentAnalysis ir cfg).preds b := by
            simp only [assignmentAnalysis, List.mem_filter, List.mem_range, hat, Option.map_some,
              Option.getD_some, List.contains_iff_mem]
            exact ⟨hmlt, hedge.mem_successors⟩
          have hv' : v ∈ (assignmentAnalysis ir cfg).out (assignmentAnalysis ir cfg).solve m := by
            have hv' := hv
            rw [Must.meet, show (assignmentAnalysis ir cfg).seed b = none from hseed] at hv'
            simp only [List.mem_filter, decide_eq_true_eq] at hv'
            exact hv'.2.2 m hpred
          obtain ⟨-, -, hdefs⟩ := hedge.effects (validateBlock_of_build h hat)
          rw [defined_append]
          rcases List.mem_append.mp hv' with hv' | hv'
          · exact (ih hp₁ hmexit hmlt hv').imp_right .inl
          · refine .inr (.inr (hdefs v ?_))
            simpa [assignmentAnalysis, hat] using hv'

/-- **Accepted means assigned on every path**: if the analysis accepts the graph of `ir`, then in every run of
    a body a variable is used only if the body may take it as assigned when entered, or has assigned it. -/
theorem definitelyAssigned (h : vntCfgBuild ir = some cfg) (hsim : Simulates cfg ir)
    (hok : vntCfgCheckDefiniteAssignment ir cfg = .ok ()) {i : Nat} {body : Hir}
    (hbody : ir.bodies[i]? = some body) {es rest : List CfgEvent} {ev : CfgEvent} {o : Outcome}
    (hr : Runs body (es ++ ev :: rest) o) : ∀ v ∈ ev.uses, v ∈ entryFacts ir i ∨ Defined es v := by
  intro v hv
  have hlt := (List.getElem?_eq_some_iff.mp hbody).1
  rw [← hsim.1] at hlt
  have hentry := List.getElem?_eq_getElem hlt
  obtain ⟨k, b, hp⟩ := ((hsim.2 i _ body hbody hentry _).1).mpr ⟨o, hr⟩
  obtain ⟨k', m, block, t, hp', hat, hedge⟩ :=
    hp.split (fun hat hedge => (hedge.effects (validateBlock_of_build h hat)).1) rfl
  have hmlt : m < cfg.blocks.length := (List.getElem?_eq_some_iff.mp hat).1
  have hmexit : m ≠ cfg.exitBlock := by
    rintro rfl
    rw [exitBlock_is_exitNode h] at hat
    cases hat
    exact hedge.elim
  refine solution_on_path h hentry k' hp' hmexit hmlt ?_
  have huse : v ∈ block.uses :=
    (hedge.effects (validateBlock_of_build h hat)).2.1 ev List.mem_cons_self v hv
  have hknown : v ∈ collectVariables ir := by
    refine mem_collectVariables.mpr (names_of_bodies (List.mem_of_getElem? hbody) ?_)
    exact hr.names ev (List.mem_append_right _ List.mem_cons_self) v hv
  -- No block of the accepted graph uses a variable the solution lacks.
  obtain ⟨hlen, -⟩ := (assignmentAnalysis ir cfg).solve_spec
  obtain ⟨assigned, hget⟩ : ∃ l, (assignmentAnalysis ir cfg).solve[m]? = some l :=
    ⟨_, List.getElem?_eq_getElem (hlen.symm ▸ hmlt)⟩
  rw [hget, Option.getD_some]
  unfold vntCfgCheckDefiniteAssignment at hok
  split at hok
  · simp only at hok
    split at hok
    · exact absurd hok throw_ne_ok
    · rename_i hnone
      rw [List.findSome?_eq_none_iff] at hnone
      have hpair := hnone (block, assigned) (by
        refine List.mem_of_getElem? (i := m) ?_
        rw [List.getElem?_zip_eq_some]
        exact ⟨hat, hget⟩)
      rw [List.find?_eq_none] at hpair
      have := hpair v hknown
      simpa [huse] using this
  · exact absurd hok throw_ne_ok

end Accepted

end Vnt
