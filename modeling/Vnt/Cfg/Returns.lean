import Vnt.Cfg.Exact
import Vnt.Ir.Outline
import Vnt.Lib.Agree

/-!
# `Cfg.Returns` — bodies that cannot fall off their end

`hirReturns` is the checker's syntactic rule, read on the HIR: a `RETURN` in the sequence, in a block of it, or
in both arms of a branch. A sequence that satisfies it has no run that ends normally, neither among the
structured runs nor under the semantics of the HIR; so every path of its graph that reaches the exit block goes
through one of its `RETURN` blocks.
-/

namespace Vnt

/-! ## The rule on the HIR -/

/-- `statement_list_returns`, after lowering. -/
@[simp] def hirReturns : Hir → Bool
  | .nil => false
  | .one _ .returnNode _ _ => true
  | .one _ .program a n => hirReturns a || hirReturns n
  | .ifNode _ _ t e n => (hirReturns t && hirReturns e) || hirReturns n
  | .leaf _ _ n => hirReturns n
  | .one _ _ _ n => hirReturns n
  | .two _ _ _ _ n => hirReturns n

/-- Every `RETURN` of the sequence carries a value; those of functions inside it are not its own. -/
def valuedReturns : Hir → Bool
  | .nil => true
  | .one _ .returnNode a n => a != .nil && valuedReturns n
  | .one _ .program a n => valuedReturns a && valuedReturns n
  | .two _ .whileNode _ b n => valuedReturns b && valuedReturns n
  | .ifNode _ _ t e n => valuedReturns t && valuedReturns e && valuedReturns n
  | .leaf _ _ n => valuedReturns n
  | .one _ _ _ n => valuedReturns n
  | .two _ _ _ _ n => valuedReturns n

/-- Whether a chain is empty can be seen from its outline. -/
theorem outline_bne_nil (a : Hir) : (a.outline != .nil) = (a != .nil) := by
  cases a <;> rfl

theorem hirReturns_outline (h : Hir) : hirReturns h.outline = hirReturns h := by
  induction h with
  | nil => rfl
  | leaf i op n hn => simp only [Hir.outline, hirReturns, hn]
  | one i op a n ha hn => cases op <;> simp only [Hir.outline, HirOne.outline, hirReturns, ha, hn]
  | two i op a b n ha hb hn => simp only [Hir.outline, hirReturns, hn]
  | ifNode i c t e n hc ht he hn => simp only [Hir.outline, hirReturns, ht, he, hn]

theorem valuedReturns_outline (h : Hir) : valuedReturns h.outline = valuedReturns h := by
  induction h with
  | nil => rfl
  | leaf i op n hn => simp only [Hir.outline, valuedReturns, hn]
  | one i op a n ha hn =>
      cases op <;> simp only [Hir.outline, HirOne.outline, valuedReturns, ha, hn, outline_bne_nil]
  | two i op a b n ha hb hn => cases op <;> simp only [Hir.outline, valuedReturns, hb, hn]
  | ifNode i c t e n hc ht he hn => simp only [Hir.outline, valuedReturns, ht, he, hn]

/-! ## Structured runs -/

theorem Runs.not_normal {h : Hir} {es : List CfgEvent} {o : Outcome} (hr : Runs h es o) :
    hirReturns h = true → o ≠ .normal := by
  induction hr with
  | nil => intro h; cases h
  | cut h => intro _ ho; cases ho
  | leaf plain rest ih => exact ih
  | @one i op a n es o plain rest ih =>
      intro h
      cases op <;> first | exact ih h | cases plain
  | two plain rest ih => exact ih
  | struct rest ih => exact ih
  | function rest ih => exact ih
  | break_ => intro _ ho; cases ho
  | continue_ => intro _ ho; cases ho
  | return_ => intro _ ho; cases ho
  | program block rest ihb ihr =>
      intro h
      rw [hirReturns, Bool.or_eq_true] at h
      rcases h with h | h
      · exact absurd rfl (ihb h)
      · exact ihr h
  | programOut block out ih => intro _; exact out
  | @arm i c t e n outcome es es' es'' o test block rest ihb ihr =>
      intro h
      rw [hirReturns, Bool.or_eq_true, Bool.and_eq_true] at h
      rcases h with ⟨ht, he⟩ | h
      · refine absurd rfl (ihb ?_)
        cases outcome
        · exact he
        · exact ht
      · exact ihr h
  | armOut test block out ih => intro _; exact out
  | done test rest ih => exact ih
  | again test block round rest ihb ihr => exact ihr
  | left test block rest ihb ihr => exact ihr
  | loopOut test block out ih =>
      intro _ ho
      rcases out with out | out <;> exact absurd (ho.symm.trans out) (by decide)

/-- A run that returns has executed one of the returns of its sequence. -/
theorem Runs.returned_valued {h : Hir} {es : List CfgEvent} {o : Outcome} (hr : Runs h es o) :
    o = .returned → valuedReturns h = true →
      ∃ i a, CfgEvent.statement (.one i .returnNode a .nil) ∈ es ∧ a ≠ .nil := by
  induction hr with
  | nil => intro ho; cases ho
  | cut h => intro ho; cases ho
  | leaf plain rest ih =>
      intro ho hv
      obtain ⟨i, a, hmem, ha⟩ := ih ho hv
      exact ⟨i, a, List.mem_cons_of_mem _ hmem, ha⟩
  | @one i op a n es o plain rest ih =>
      intro ho hv
      have hv' : valuedReturns n = true := by
        cases op <;> first | exact hv | cases plain
      obtain ⟨j, b, hmem, hb⟩ := ih ho hv'
      exact ⟨j, b, List.mem_cons_of_mem _ hmem, hb⟩
  | @two i op a b n es o plain rest ih =>
      intro ho hv
      have hv' : valuedReturns n = true := by
        cases op <;> first | exact hv | cases plain
      obtain ⟨j, c, hmem, hc⟩ := ih ho hv'
      exact ⟨j, c, List.mem_cons_of_mem _ hmem, hc⟩
  | struct rest ih => exact ih
  | function rest ih => exact ih
  | break_ => intro ho; cases ho
  | continue_ => intro ho; cases ho
  | @return_ i a n =>
      intro _ hv
      rw [valuedReturns, Bool.and_eq_true] at hv
      exact ⟨i, a, List.mem_singleton_self _, by simpa using hv.1⟩
  | program block rest ihb ihr =>
      intro ho hv
      rw [valuedReturns, Bool.and_eq_true] at hv
      obtain ⟨i, a, hmem, ha⟩ := ihr ho hv.2
      exact ⟨i, a, List.mem_append_right _ hmem, ha⟩
  | programOut block out ih =>
      intro ho hv
      rw [valuedReturns, Bool.and_eq_true] at hv
      exact ih ho hv.1
  | arm test block rest ihb ihr =>
      intro ho hv
      rw [valuedReturns, Bool.and_eq_true] at hv
      obtain ⟨i, a, hmem, ha⟩ := ihr ho hv.2
      exact ⟨i, a, List.mem_append_right _ (List.mem_append_right _ hmem), ha⟩
  | @armOut i c t e n outcome es es' o test block out ih =>
      intro ho hv
      rw [valuedReturns, Bool.and_eq_true, Bool.and_eq_true] at hv
      obtain ⟨j, a, hmem, ha⟩ := ih ho (by
        cases outcome
        · exact hv.1.2
        · exact hv.1.1)
      exact ⟨j, a, List.mem_append_right _ hmem, ha⟩
  | done test rest ih =>
      intro ho hv
      rw [valuedReturns, Bool.and_eq_true] at hv
      obtain ⟨i, a, hmem, ha⟩ := ih ho hv.2
      exact ⟨i, a, List.mem_append_right _ hmem, ha⟩
  | again test block round rest ihb ihr =>
      intro ho hv
      obtain ⟨i, a, hmem, ha⟩ := ihr ho hv
      exact ⟨i, a, List.mem_append_right _ (List.mem_append_right _ hmem), ha⟩
  | left test block rest ihb ihr =>
      intro ho hv
      rw [valuedReturns, Bool.and_eq_true] at hv
      obtain ⟨i, a, hmem, ha⟩ := ihr ho hv.2
      exact ⟨i, a, List.mem_append_right _ (List.mem_append_right _ hmem), ha⟩
  | loopOut test block out ih =>
      intro ho hv
      rw [valuedReturns, Bool.and_eq_true] at hv
      obtain ⟨i, a, hmem, ha⟩ := ih ho hv.1
      exact ⟨i, a, List.mem_append_right _ hmem, ha⟩

/-! ## The semantics of the HIR -/

section Semantics

variable {H V : Type} (ctx : Ctx H V)

/-- A statement that cannot end normally ends the sequence. -/
theorem runSeq_cons_ne_normal {m : M H V (Flow V)} {ms : List (M H V (Flow V))} {s s' : State H V}
    (h : (∀ s s', m s ≠ .ok .normal s') ∨ ∀ s s', runSeq ms s ≠ .ok .normal s') :
    runSeq (m :: ms) s ≠ .ok .normal s' := by
  intro hrun
  obtain ⟨flow, t, hm, hrest⟩ := Lib.bind_ok_iff.mp hrun
  cases flow with
  | normal =>
      rcases h with h | h
      · exact h s t hm
      · exact h t s' hrest
  | breakLoop => cases hrest
  | continueLoop => cases hrest
  | returned v => cases hrest

/-- **A sequence that satisfies the rule never ends normally.** -/
theorem runSeq_ne_normal (h : Hir) : hirReturns h = true → ∀ s s', runSeq (execs ctx h) s ≠ .ok .normal s' := by
  induction h with
  | nil => intro h; cases h
  | leaf i op n hn => intro h s s'; exact runSeq_cons_ne_normal (.inr (hn h))
  | one i op a n ha hn =>
      intro h s s'
      cases op with
      | returnNode =>
          refine runSeq_cons_ne_normal (.inl fun s s' hrun => ?_)
          cases hevals : evals ctx a with
          | nil =>
              rw [hevals] at hrun
              cases hrun
          | cons m ms =>
              rw [hevals] at hrun
              obtain ⟨v, t, -, hpure⟩ := Lib.bind_ok_iff.mp hrun
              cases hpure
      | program =>
          rw [hirReturns, Bool.or_eq_true] at h
          exact runSeq_cons_ne_normal (h.imp ha hn)
      | _ => exact runSeq_cons_ne_normal (.inr (hn h))
  | two i op a b n ha hb hn => intro h s s'; exact runSeq_cons_ne_normal (.inr (hn h))
  | ifNode i c t e n hc ht he hn =>
      intro h s s'
      rw [hirReturns, Bool.or_eq_true, Bool.and_eq_true] at h
      refine runSeq_cons_ne_normal (h.imp (fun h s s' hrun => ?_) hn)
      obtain ⟨outcome, u, -, hbranch⟩ := Lib.bind_ok_iff.mp hrun
      cases outcome
      · exact he h.2 u s' hbranch
      · exact ht h.1 u s' hbranch

end Semantics

/-! ## Return blocks -/

/-- A block that executes a `RETURN` is terminated by it. -/
def EndsInReturn (block : VntCfgBlock) : Prop :=
  ∀ i a n, block.instruction = some (.one i .returnNode a n) → block.terminator = .returnNode

theorem endsInReturn_branching (c : Hir) (yes : Option Nat) (no : Nat) : EndsInReturn (branching c yes no) := by
  intro i a n h
  cases h

theorem endsInReturn_straight {node : Hir} {next : Nat} {term : VntCfgTerminator}
    (h : ∀ i a n, node ≠ .one i .returnNode a n) : EndsInReturn (straight node next term) := by
  intro i a n hi
  exact absurd (Option.some.inj hi) (h i a n)

theorem endsInReturn_snoc {blocks : List VntCfgBlock} {block : VntCfgBlock} (h : ∀ b ∈ blocks, EndsInReturn b)
    (hblock : EndsInReturn block) : ∀ b ∈ blocks ++ [block], EndsInReturn b := by
  intro b hb
  rcases List.mem_append.mp hb with hb | hb
  · exact h b hb
  · rw [List.mem_singleton.mp hb]
    exact hblock

theorem buildSequence_endsInReturn (h : Hir) : ∀ {next e : Nat} {break_ continue_ : Option Nat}
    {before after : List VntCfgBlock}, buildSequence h next break_ continue_ before = some (after, e) →
      (∀ b ∈ before, EndsInReturn b) → ∀ b ∈ after, EndsInReturn b := by
  induction h with
  | nil =>
      intro next e break_ continue_ before after h hb
      cases h
      exact hb
  | leaf i op n hn =>
      intro next e break_ continue_ before after h hb
      simp only [buildSequence, bind, Option.bind_eq_some_iff] at h
      obtain ⟨⟨mid, m⟩, hmid, h⟩ := h
      have hkeep := hn hmid hb
      cases op with
      | breakNode =>
          obtain ⟨target, -, h⟩ := Option.bind_eq_some_iff.mp h
          cases h
          exact endsInReturn_snoc hkeep (endsInReturn_straight (by simp))
      | continueNode =>
          obtain ⟨target, -, h⟩ := Option.bind_eq_some_iff.mp h
          cases h
          exact endsInReturn_snoc hkeep (endsInReturn_straight (by simp))
      | struct name names =>
          cases h
          exact hkeep
      | _ =>
          cases h
          exact endsInReturn_snoc hkeep (endsInReturn_straight (by simp))
  | one i op a n ha hn =>
      intro next e break_ continue_ before after h hb
      simp only [buildSequence, bind, Option.bind_eq_some_iff] at h
      obtain ⟨⟨mid, m⟩, hmid, h⟩ := h
      have hkeep := hn hmid hb
      cases op with
      | program => exact ha h hkeep
      | returnNode =>
          cases h
          exact endsInReturn_snoc hkeep fun _ _ _ _ => rfl
      | function f names =>
          cases h
          exact hkeep
      | _ =>
          cases h
          exact endsInReturn_snoc hkeep (endsInReturn_straight (by simp))
  | two i op a b n ha hb hn =>
      intro next e break_ continue_ before after h hbefore
      simp only [buildSequence, bind, Option.bind_eq_some_iff] at h
      obtain ⟨⟨mid, m⟩, hmid, h⟩ := h
      have hkeep := hn hmid hbefore
      cases op with
      | whileNode =>
          simp only at h
          split at h
          · cases h
          · simp only [newBlock, Option.bind_eq_some_iff, Option.some.injEq, Prod.mk.injEq] at h
            obtain ⟨⟨built, body⟩, hbody, rfl, -⟩ := h
            have hbuilt := hb hbody (endsInReturn_snoc hkeep (endsInReturn_branching _ _ _))
            intro block hblock
            rcases List.mem_or_eq_of_mem_set hblock with hmem | rfl
            · exact hbuilt block hmem
            · exact endsInReturn_branching _ _ _
      | _ =>
          cases h
          exact endsInReturn_snoc hkeep (endsInReturn_straight (by simp))
  | ifNode i c t e n hc ht he hn =>
      intro next e' break_ continue_ before after h hb
      simp only [buildSequence, bind, Option.bind_eq_some_iff] at h
      obtain ⟨⟨mid, m⟩, hmid, h⟩ := h
      have hkeep := hn hmid hb
      split at h
      · cases h
      · simp only [Option.bind_eq_some_iff] at h
        obtain ⟨⟨thens, yes⟩, hthens, ⟨elses, no⟩, helses, h⟩ := h
        cases h
        exact endsInReturn_snoc (he helses (ht hthens hkeep)) (endsInReturn_branching _ _ _)

theorem buildEntries_endsInReturn (bodies : List Hir) : ∀ {before after : List VntCfgBlock} {entries : List Nat},
    buildEntries bodies before = some (after, entries) → (∀ b ∈ before, EndsInReturn b) →
      ∀ b ∈ after, EndsInReturn b := by
  induction bodies with
  | nil =>
      intro before after entries h hb
      cases h
      exact hb
  | cons body bodies ih =>
      intro before after entries h hb
      simp only [buildEntries, bind, Option.bind_eq_some_iff] at h
      obtain ⟨⟨mid, entry⟩, hmid, ⟨rest, entries'⟩, hrest, h⟩ := h
      cases h
      exact ih hrest (buildSequence_endsInReturn body hmid hb)

section Built

variable {ir : Hir} {cfg : VntCfg}

theorem endsInReturn_of_build (h : vntCfgBuild ir = some cfg) {b : Nat} {block : VntCfgBlock}
    (hat : cfg.blocks[b]? = some block) : EndsInReturn block := by
  obtain ⟨raw, hraw, hprune, -⟩ := vntCfgBuild_ok h
  simp only [buildBlocks, bind, Option.bind_eq_some_iff, Option.some.injEq] at hraw
  obtain ⟨⟨blocks, entries⟩, hb, rfl⟩ := hraw
  have hall := buildEntries_endsInReturn _ hb (by
    intro b hb
    rw [List.mem_singleton.mp hb]
    intro i a n hi
    cases hi)
  obtain ⟨kept, b₀, old, hold, rfl⟩ := block_of_pruned hprune hat
  intro i a n hi
  simp only [VntCfgBlock.rename] at hi ⊢
  unfold simplifyBlock at hi ⊢
  split at hi
  · cases hi
  · exact hall old (List.mem_of_getElem? hold) i a n hi

/-- A trail shows its statements as events, and each of them belongs to a block on it. -/
theorem Trail.events (h : vntCfgBuild ir = some cfg) {e b : Nat} {before : List Nat}
    (ht : Trail cfg.blocks e before b) : ∃ k es, Path cfg.blocks k e es b ∧
      ∀ node, CfgEvent.statement node ∈ es → ∃ p ∈ before, ∃ block, cfg.blocks[p]? = some block ∧
        block.instruction = some node := by
  induction ht with
  | start =>
      refine ⟨0, [], .refl e, fun node hnode => ?_⟩
      cases hnode
  | @step before m b block rest at_ edge ih =>
      obtain ⟨k, es, hp, hes⟩ := ih
      obtain ⟨es', hstep⟩ := steps_of_successor h at_ edge
      refine ⟨_, es ++ (es' ++ []), hp.trans (.step at_ hstep (.refl _)), fun node hnode => ?_⟩
      rw [List.append_nil] at hnode
      rcases List.mem_append.mp hnode with hnode | hnode
      · obtain ⟨p, hpm, hrest⟩ := hes node hnode
        exact ⟨p, List.mem_append_left _ hpm, hrest⟩
      · refine ⟨m, List.mem_append_right _ (List.mem_singleton_self m), block, at_, ?_⟩
        unfold VntCfgBlock.Steps at hstep
        cases hterm : block.terminator with
        | branch =>
            simp only [hterm] at hstep
            obtain ⟨c, outcome, -, htest, -⟩ := hstep
            unfold Tests at htest
            split at htest
            · simp [htest.2] at hnode
            · simp [htest] at hnode
        | exit => simp [hterm] at hstep
        | _ =>
            simp only [hterm] at hstep
            simp only [hstep.2, List.mem_map, Option.mem_toList, CfgEvent.statement.injEq] at hnode
            obtain ⟨node', hnode', rfl⟩ := hnode
            exact hnode'

/-- A `RETURN` block that carries a value. -/
def VntCfgBlock.ReturnsValue (block : VntCfgBlock) : Prop :=
  block.terminator = .returnNode ∧ ∃ i a n, block.instruction = some (.one i .returnNode a n) ∧ a ≠ .nil

/-- **Every path of such a body to the exit goes through a return with a value.** -/
theorem trail_returns (h : vntCfgBuild ir = some cfg) {i e : Nat} {body : Hir} (hbody : ir.bodies[i]? = some body)
    (hi : cfg.entries[i]? = some e) (hret : hirReturns body = true) (hval : valuedReturns body = true)
    {before : List Nat} (ht : Trail cfg.blocks e before cfg.exitBlock) :
    ∃ p ∈ before, ∃ block, cfg.blocks[p]? = some block ∧ block.ReturnsValue := by
  obtain ⟨k, es, hp, hes⟩ := ht.events h
  obtain ⟨o, hr, hf⟩ := ((simulates_of_build h).2 i e body hbody hi es).2.mp ⟨k, hp⟩
  have ho : o = .returned := by
    have hne := hr.not_normal hret
    cases o with
    | returned => rfl
    | normal => exact absurd rfl hne
    | broke => cases hf
    | continued => cases hf
    | cut => cases hf
  obtain ⟨j, a, hmem, ha⟩ := hr.returned_valued ho hval
  obtain ⟨p, hpm, block, hat, hinst⟩ := hes _ hmem
  exact ⟨p, hpm, block, hat, endsInReturn_of_build h hat j a .nil hinst, j, a, .nil, hinst, ha⟩

end Built

end Vnt
