import Vnt.Cfg.Assigned

/-!
# `Cfg.Exact` — the analysis decides assignment on every path

`Cfg.Assigned` has one half: what the solution claims of a block holds on every path to it. Here is the other
one. "Assigned on every path from an entry" is itself a valuation of the blocks, and it asks of no block more
than the block's equation gives; the solution is the largest such valuation, so it contains it. A program
is therefore rejected only if some path reads a variable that nothing on it has assigned.
-/

namespace Vnt

open Lib

/-! ## Paths as sequences of blocks -/

/-- A path from `e` to `b` along successors; `before` lists the blocks passed on the way, `b` not included. -/
inductive Trail (blocks : List VntCfgBlock) (e : Nat) : List Nat → Nat → Prop
  | start : Trail blocks e [] e
  | step {before : List Nat} {b t : Nat} {block : VntCfgBlock} (rest : Trail blocks e before b)
      (at_ : blocks[b]? = some block) (edge : t ∈ block.successors) : Trail blocks e (before ++ [b]) t

/-- One of the blocks defines `v`. -/
def DefinedIn (blocks : List VntCfgBlock) (before : List Nat) (v : String) : Prop :=
  ∃ p ∈ before, ∃ block, blocks[p]? = some block ∧ v ∈ block.defs

theorem definedIn_snoc {blocks : List VntCfgBlock} {before : List Nat} {b : Nat} {block : VntCfgBlock} {v : String}
    (hat : blocks[b]? = some block) :
    DefinedIn blocks (before ++ [b]) v ↔ DefinedIn blocks before v ∨ v ∈ block.defs := by
  constructor
  · rintro ⟨p, hp, block', hat', hv⟩
    rcases List.mem_append.mp hp with hp | hp
    · exact .inl ⟨p, hp, block', hat', hv⟩
    · rw [List.mem_singleton.mp hp, hat] at hat'
      cases hat'
      exact .inr hv
  · rintro (⟨p, hp, h⟩ | hv)
    · exact ⟨p, List.mem_append_left _ hp, h⟩
    · exact ⟨b, List.mem_append_right _ (List.mem_singleton_self b), block, hat, hv⟩

/-- Every variable a block reads is in the seed of the entry, or defined by an earlier block: on every path from
    every entry. -/
def AssignedOnPaths (ir : Hir) (cfg : VntCfg) : Prop :=
  ∀ (i e : Nat), cfg.entries[i]? = some e → ∀ (before : List Nat) (b : Nat) (block : VntCfgBlock),
    Trail cfg.blocks e before b → cfg.blocks[b]? = some block →
      ∀ v ∈ block.uses, v ∈ entryFacts ir i ∨ DefinedIn cfg.blocks before v

section Built

variable {ir : Hir} {cfg : VntCfg}

/-! ## Trails and event paths -/

/-- A block that is left is one of the raw graph, simplified and renumbered. -/
theorem block_of_pruned {raw : VntCfg} (hprune : pruneUnreachableBlocks (simplifyConstantBranches raw) = some cfg)
    {b : Nat} {block : VntCfgBlock} (hat : cfg.blocks[b]? = some block) :
    ∃ kept, ∃ b₀ : Nat, ∃ old, raw.blocks[b₀]? = some old ∧ VntCfgBlock.rename (renumber kept) (simplifyBlock old) = block := by
  obtain ⟨-, kept, -, -, -, -, -, -, hsurj, hkept⟩ := pruneUnreachableBlocks_ok hprune
  obtain ⟨b₀, hb₀, rfl⟩ := hsurj b (List.getElem?_eq_some_iff.mp hat).1
  rw [hkept b₀ hb₀, Option.map_eq_some_iff] at hat
  obtain ⟨simple, hsimple, rfl⟩ := hat
  -- pruning renumbers, and the step before it rewrote the branches on literals
  simp only [simplifyConstantBranches, List.getElem?_map, Option.map_eq_some_iff] at hsimple
  obtain ⟨old, hold, rfl⟩ := hsimple
  exact ⟨kept, b₀, old, hold, rfl⟩

/-- In a graph that was built every successor can be stepped to. -/
theorem steps_of_successor (h : vntCfgBuild ir = some cfg) {b t : Nat} {block : VntCfgBlock}
    (hat : cfg.blocks[b]? = some block) (ht : t ∈ block.successors) : ∃ es, block.Steps es t := by
  obtain ⟨raw, hraw, hprune, -⟩ := vntCfgBuild_ok h
  obtain ⟨-, -, -, hvalid⟩ := buildBlocks_valid hraw
  obtain ⟨kept, b₀, old, hold, rfl⟩ := block_of_pruned hprune hat
  have ht' : ∃ t₀ ∈ (simplifyBlock old).successors, t = renumber kept t₀ := by
    simp only [VntCfgBlock.successors, VntCfgBlock.rename, List.mem_append, Option.mem_toList,
      Option.map_eq_some_iff] at ht ⊢
    rcases ht with ⟨t₀, h₀, rfl⟩ | ⟨t₀, h₀, rfl⟩
    · exact ⟨t₀, .inl h₀, rfl⟩
    · exact ⟨t₀, .inr h₀, rfl⟩
  obtain ⟨t₀, ht₀, rfl⟩ := ht'
  obtain ⟨es, hstep⟩ := steps_of_mem_successors (hvalid b₀ old (Nat.zero_le _) hold) ht₀
  exact ⟨es, (steps_rename _ _ es _).mpr ⟨t₀, hstep, rfl⟩⟩

theorem Trail.path (h : vntCfgBuild ir = some cfg) {e b : Nat} {before : List Nat}
    (ht : Trail cfg.blocks e before b) : ∃ k es, Path cfg.blocks k e es b := by
  induction ht with
  | start => exact ⟨0, [], .refl e⟩
  | step _ at_ edge ih =>
      obtain ⟨k, es, hp⟩ := ih
      obtain ⟨es', hstep⟩ := steps_of_successor h at_ edge
      exact ⟨_, _, hp.trans (.step at_ hstep (.refl _))⟩

/-- Pruning leaves only blocks that some entry reaches. -/
theorem exists_trail (h : vntCfgBuild ir = some cfg) {b : Nat} (hb : b < cfg.blocks.length) :
    ∃ (i e : Nat) (before : List Nat), cfg.entries[i]? = some e ∧ Trail cfg.blocks e before b := by
  obtain ⟨raw, -, hprune, -⟩ := vntCfgBuild_ok h
  obtain ⟨marked, kept, hm, hmem, -, hentries, -, -, hsurj, hkept⟩ := pruneUnreachableBlocks_ok hprune
  obtain ⟨b₀, hb₀, rfl⟩ := hsurj b hb
  obtain ⟨-, hroots, hclosed, hreach⟩ := VntCfg.reachable_spec hm
  obtain ⟨e₀, he₀, hpath⟩ := hreach b₀ ((hmem b₀).mp hb₀)
  -- Every block on the way was kept, and its edges were renamed with it.
  have htrail : b₀ ∈ marked ∧ ∃ before, Trail cfg.blocks (renumber kept e₀) before (renumber kept b₀) := by
    clear hb hb₀
    induction hpath with
    | refl => exact ⟨hroots e₀ he₀, [], .start⟩
    | @tail c d _ hedge ih =>
        obtain ⟨hc, before, ht⟩ := ih
        obtain ⟨l, hl, hd⟩ := hedge
        obtain ⟨block, hat, rfl, -⟩ := VntCfg.successors_eq_some.mp hl
        obtain ⟨block', hat', hall⟩ := hclosed c hc
        rw [hat] at hat'
        cases hat'
        refine ⟨hall d hd, _, .step ht (by rw [hkept c ((hmem c).mpr hc), hat]; rfl) ?_⟩
        simp only [VntCfgBlock.successors, VntCfgBlock.rename, List.mem_append, Option.mem_toList,
          Option.map_eq_some_iff] at hd ⊢
        exact hd.imp (fun hd => ⟨d, hd, rfl⟩) fun hd => ⟨d, hd, rfl⟩
  obtain ⟨-, before, ht⟩ := htrail
  have hentry : renumber kept e₀ ∈ cfg.entries := by
    rw [hentries]
    exact List.mem_map_of_mem he₀
  obtain ⟨i, hi⟩ := List.getElem?_of_mem hentry
  exact ⟨i, _, before, hi, ht⟩

/-! ## What blocks use is known -/

/-- The events of an edge show everything its block uses. -/
theorem uses_of_steps {block : VntCfgBlock} {count exitBlock i t : Nat} {es : List CfgEvent}
    (hv : validateBlock count exitBlock i block = true) (hstep : block.Steps es t)
    (hlit : ∀ c, block.condition = some c → block.terminator = .branch → literalCondition c = none) {v : String}
    (huse : v ∈ block.uses) : ∃ ev ∈ es, v ∈ ev.uses := by
  unfold validateBlock at hv
  rw [Bool.and_eq_true] at hv
  have hshape := hv.2
  unfold VntCfgBlock.Steps at hstep
  unfold VntCfgBlock.uses at huse
  cases hterm : block.terminator with
  | branch =>
      simp only [hterm, Bool.and_eq_true, Option.isNone_iff_eq_none] at hstep hshape
      obtain ⟨c, outcome, hc, htest, -⟩ := hstep
      simp only [Tests, hlit c hc hterm] at htest
      simp only [hc, hshape.2, List.append_nil] at huse
      exact ⟨.test c outcome, by rw [htest]; exact List.mem_singleton_self _, huse⟩
  | exit => simp [hterm] at hstep
  | _ =>
      simp only [hterm, Bool.and_eq_true, Option.isNone_iff_eq_none] at hstep hshape
      obtain ⟨-, rfl⟩ := hstep
      have hcond : block.condition = none := by
        first | exact hshape.1.1.2 | exact hshape.1.1
      simp only [hcond, List.nil_append] at huse
      cases hi : block.instruction with
      | none => simp [hi] at huse
      | some node =>
          rw [hi] at huse
          exact ⟨.statement node, by simp, huse⟩

/-- No branch of a built graph has a literal condition. -/
theorem condition_not_literal (h : vntCfgBuild ir = some cfg) {b : Nat} {block : VntCfgBlock}
    (hat : cfg.blocks[b]? = some block) : ∀ c, block.condition = some c → block.terminator = .branch →
      literalCondition c = none := by
  obtain ⟨raw, -, hprune, -⟩ := vntCfgBuild_ok h
  obtain ⟨kept, -, old, -, rfl⟩ := block_of_pruned hprune hat
  intro c hc hterm
  simp only [VntCfgBlock.rename] at hc hterm
  unfold simplifyBlock at hc hterm
  split at hterm
  · cases hterm
  · rename_i hne
    cases hl : literalCondition c with
    | none => rfl
    | some literal =>
        split at hc
        · cases hc
        · exact absurd (by rw [hc]; exact hl) (hne literal hterm)

/-- The variables a block uses are variables of the program. -/
theorem uses_known (h : vntCfgBuild ir = some cfg) {b : Nat} {block : VntCfgBlock}
    (hat : cfg.blocks[b]? = some block) {v : String} (huse : v ∈ block.uses) : v ∈ collectVariables ir := by
  have hvalid := validateBlock_of_build h hat
  -- Only the exit has no successor, and it uses nothing.
  have hnext : ∃ t, t ∈ block.successors := by
    unfold validateBlock at hvalid
    rw [Bool.and_eq_true] at hvalid
    have hshape := hvalid.2
    cases hterm : block.terminator with
    | exit =>
        simp only [hterm, Bool.and_eq_true, Option.isNone_iff_eq_none] at hshape
        simp [VntCfgBlock.uses, hshape.1.1.1.2, hshape.1.1.2] at huse
    | returnNode =>
        simp only [hterm, Bool.and_eq_true, beq_iff_eq] at hshape
        exact ⟨cfg.exitBlock, by simp [VntCfgBlock.successors, hshape.1.2]⟩
    | branch =>
        simp only [hterm, Bool.and_eq_true, Option.isSome_iff_exists] at hshape
        obtain ⟨t, ht⟩ := hshape.1.1.2
        exact ⟨t, by simp [VntCfgBlock.successors, ht]⟩
    | jump =>
        simp only [hterm, Bool.and_eq_true, Option.isSome_iff_exists] at hshape
        obtain ⟨t, ht⟩ := hshape.1.2
        exact ⟨t, by simp [VntCfgBlock.successors, ht]⟩
    | fallthrough =>
        simp only [hterm, Bool.and_eq_true, Option.isSome_iff_exists] at hshape
        obtain ⟨t, ht⟩ := hshape.1.2
        exact ⟨t, by simp [VntCfgBlock.successors, ht]⟩
  obtain ⟨t, ht⟩ := hnext
  obtain ⟨es', hstep⟩ := steps_of_successor h hat ht
  obtain ⟨ev, hev, hv⟩ := uses_of_steps hvalid hstep (condition_not_literal h hat) huse
  obtain ⟨i, e, before, hi, htrail⟩ := exists_trail h (List.getElem?_eq_some_iff.mp hat).1
  obtain ⟨k, es, hp⟩ := htrail.path h
  have hsim := simulates_of_build h
  have hlt : i < ir.bodies.length := by
    rw [← hsim.1]
    exact (List.getElem?_eq_some_iff.mp hi).1
  have hbody := List.getElem?_eq_getElem hlt
  obtain ⟨o, hr⟩ := (hsim.2 i e _ hbody hi _).1.mp ⟨_, t, hp.trans (.step hat hstep (.refl t))⟩
  refine mem_collectVariables.mpr (names_of_bodies (List.mem_of_getElem? hbody) ?_)
  refine hr.names ev ?_ v hv
  exact List.mem_append_right _ (List.mem_append_left _ hev)

/-! ## Soundness along trails -/

theorem mem_preds (hat : ∃ block, cfg.blocks[b]? = some block ∧ t ∈ block.successors) :
    b ∈ (assignmentAnalysis ir cfg).preds t := by
  obtain ⟨block, hat, ht⟩ := hat
  simp only [assignmentAnalysis, List.mem_filter, List.mem_range, hat, Option.map_some, Option.getD_some,
    List.contains_iff_mem]
  exact ⟨(List.getElem?_eq_some_iff.mp hat).1, ht⟩

/-- What the solution claims at a block holds on every trail to it. -/
theorem solution_on_trail (h : vntCfgBuild ir = some cfg) {i e : Nat} (hi : cfg.entries[i]? = some e)
    {before : List Nat} {b : Nat} (ht : Trail cfg.blocks e before b) : b ≠ cfg.exitBlock →
      b < cfg.blocks.length → ∀ {v : String}, v ∈ (assignmentAnalysis ir cfg).solve[b]?.getD [] →
        v ∈ entryFacts ir i ∨ DefinedIn cfg.blocks before v := by
  obtain ⟨hlen, heq⟩ := (assignmentAnalysis ir cfg).solve_spec
  -- At an entry block the solution is its seed, whichever way it was reached.
  have entered : ∀ {before : List Nat} {b : Nat} {s : List String} {v : String}, Trail cfg.blocks e before b →
      b ≠ cfg.exitBlock → entrySeed ir cfg b = some s → v ∈ (assignmentAnalysis ir cfg).meet
        (assignmentAnalysis ir cfg).solve b → v ∈ entryFacts ir i := by
    intro before b s v ht hb hseed hv
    simp only [Must.meet, assignmentAnalysis, hseed, List.mem_filter, decide_eq_true_eq] at hv
    have hin : b ∈ cfg.entries := by
      by_contra hn
      simp [entrySeed, hn] at hseed
    obtain ⟨j, hj⟩ := List.getElem?_of_mem hin
    obtain ⟨k, es, hp⟩ := ht.path h
    have hij := (entry_unique h hi hj hp).resolve_left hb
    exact mem_entryFacts h (hij ▸ hj) hb hseed hv.2
  induction ht with
  | start =>
      intro hb hlt v hv
      have hget := List.getElem?_eq_getElem (hlen.symm ▸ hlt : e < (assignmentAnalysis ir cfg).solve.length)
      rw [hget, Option.getD_some, heq e hlt _ hget] at hv
      have hin : e ∈ cfg.entries := List.mem_of_getElem? hi
      cases hseed : entrySeed ir cfg e with
      | none => simp [entrySeed, hin] at hseed
      | some s => exact .inl (entered .start hb hseed hv)
  | @step before m b block rest at_ edge ih =>
      intro hb hlt v hv
      have hget := List.getElem?_eq_getElem (hlen.symm ▸ hlt : b < (assignmentAnalysis ir cfg).solve.length)
      rw [hget, Option.getD_some, heq b hlt _ hget] at hv
      cases hseed : entrySeed ir cfg b with
      | some s => exact .inl (entered (.step rest at_ edge) hb hseed hv)
      | none =>
          have hmlt : m < cfg.blocks.length := (List.getElem?_eq_some_iff.mp at_).1
          have hmexit : m ≠ cfg.exitBlock := by
            rintro rfl
            rw [exitBlock_is_exitNode h] at at_
            cases at_
            cases edge
          have hv' : v ∈ (assignmentAnalysis ir cfg).out (assignmentAnalysis ir cfg).solve m := by
            rw [Must.meet, show (assignmentAnalysis ir cfg).seed b = none from hseed] at hv
            simp only [List.mem_filter, decide_eq_true_eq] at hv
            exact hv.2.2 m (mem_preds ⟨block, at_, edge⟩)
          rw [definedIn_snoc at_]
          rcases List.mem_append.mp hv' with hv' | hv'
          · exact (ih hmexit hmlt hv').imp_right .inl
          · refine .inr (.inr ?_)
            simpa [assignmentAnalysis, at_] using hv'

/-! ## Completeness -/

/-- `v` is assigned on every trail to `b`. -/
def AssignedAt (ir : Hir) (cfg : VntCfg) (b : Nat) (v : String) : Prop :=
  v ∈ collectVariables ir ∧ ∀ (i e : Nat), cfg.entries[i]? = some e → ∀ before : List Nat,
    Trail cfg.blocks e before b → v ∈ entryFacts ir i ∨ DefinedIn cfg.blocks before v

/-- The seed of an entry block has what the body entered there may take as assigned. -/
theorem entryFacts_subset {i b : Nat} (hi : cfg.entries[i]? = some b) {s : List String}
    (hs : entrySeed ir cfg b = some s) {v : String} (hv : v ∈ entryFacts ir i) : v ∈ s := by
  unfold entrySeed at hs
  split at hs
  · cases hs
    cases i with
    | zero => cases hv
    | succ i =>
        have htail : cfg.entries.tail[i]? = some b := by rw [List.getElem?_tail]; exact hi
        rw [if_pos (List.mem_of_getElem? htail)]
        rcases List.mem_append.mp hv with hv | hv
        · exact List.mem_append_left _ hv
        · refine List.mem_append_right _ (List.mem_flatMap.mpr ?_)
          cases hf : ir.arenaFunctions[i]? with
          | none => simp [hf] at hv
          | some f =>
              refine ⟨(f, b), List.mem_filter.mpr ⟨?_, by simp⟩, by simpa [hf] using hv⟩
              exact List.mem_of_getElem? (List.getElem?_zip_eq_some.mpr ⟨hf, htail⟩)
  · cases hs

/-- "Assigned on every trail" satisfies the equations of the analysis. -/
theorem consistent_assignedAt (h : vntCfgBuild ir = some cfg) :
    (assignmentAnalysis ir cfg).Consistent (AssignedAt ir cfg) where
  known := fun b v hv => hv.1
  seeded := by
    intro b hb s hs v hv
    have hin : b ∈ cfg.entries := by
      by_contra hn
      simp [assignmentAnalysis, entrySeed, hn] at hs
    obtain ⟨i, hi⟩ := List.getElem?_of_mem hin
    rcases hv.2 i b hi [] .start with hfact | ⟨p, hp, -⟩
    · exact entryFacts_subset hi hs hfact
    · cases hp
  flows := by
    intro b hb hseed v hv
    refine ⟨?_, fun p hp => ?_⟩
    · -- A reached block that is not entered has been stepped into.
      obtain ⟨i, e, before, hi, ht⟩ := exists_trail h hb
      cases ht with
      | start =>
          have hin : b ∈ cfg.entries := List.mem_of_getElem? hi
          simp [assignmentAnalysis, entrySeed, hin] at hseed
      | step rest at_ edge => exact List.ne_nil_of_mem (mem_preds ⟨_, at_, edge⟩)
    · simp only [assignmentAnalysis, List.mem_filter, List.mem_range, List.contains_iff_mem] at hp
      have hat := List.getElem?_eq_getElem hp.1
      have hedge : b ∈ cfg.blocks[p].successors := by simpa [hat] using hp.2
      refine ⟨hp.1, ?_⟩
      by_cases hdef : v ∈ cfg.blocks[p].defs
      · refine .inr ?_
        simp only [assignmentAnalysis, hat, Option.map_some, Option.getD_some]
        exact hdef
      · refine .inl ⟨hv.1, fun i e hi before ht => ?_⟩
        rcases hv.2 i e hi _ (.step ht hat hedge) with hfact | hdefined
        · exact .inl hfact
        · exact .inr (((definedIn_snoc hat).mp hdefined).resolve_right hdef)

/-- The check, as a statement about the solution. -/
theorem check_ok_iff (h : vntCfgBuild ir = some cfg) : vntCfgCheckDefiniteAssignment ir cfg = .ok () ↔
    ∀ (b : Nat) (block : VntCfgBlock), cfg.blocks[b]? = some block → ∀ v ∈ block.uses,
      v ∈ (assignmentAnalysis ir cfg).solve[b]?.getD [] := by
  obtain ⟨hlen, -⟩ := (assignmentAnalysis ir cfg).solve_spec
  have hready : (vntIrValidate ir && vntCfgValidate cfg) = true := by
    have h' := h
    simp only [vntCfgBuild, bind, Option.bind_eq_some_iff, Option.ite_none_right_eq_some] at h'
    obtain ⟨-, -, -, hvalid⟩ := vntCfgBuild_ok h
    rw [Bool.and_eq_true]
    exact ⟨h'.1, hvalid⟩
  unfold vntCfgCheckDefiniteAssignment
  rw [if_pos hready]
  simp only
  constructor
  · intro hok b block hat v huse
    split at hok
    · exact absurd hok throw_ne_ok
    · rename_i hnone
      have hblt := (List.getElem?_eq_some_iff.mp hat).1
      have hget := List.getElem?_eq_getElem (hlen.symm ▸ hblt : b < (assignmentAnalysis ir cfg).solve.length)
      rw [List.findSome?_eq_none_iff] at hnone
      have hpair := hnone (block, _) (List.mem_of_getElem? (List.getElem?_zip_eq_some.mpr ⟨hat, hget⟩))
      rw [List.find?_eq_none] at hpair
      have := hpair v (uses_known h hat huse)
      rw [hget]
      simpa [huse] using this
  · intro hall
    split
    · rename_i v hfind
      obtain ⟨⟨block, assigned⟩, hmem, hv⟩ := List.exists_of_findSome?_eq_some hfind
      obtain ⟨b, hb⟩ := List.getElem?_of_mem hmem
      obtain ⟨hat, hget⟩ := List.getElem?_zip_eq_some.mp hb
      have hbad := List.find?_some hv
      simp only [Bool.and_eq_true, Bool.not_eq_true', List.contains_eq_mem,
        decide_eq_false_iff_not] at hbad
      have hin := hall b block hat v (by simpa using hbad.1)
      rw [hget] at hin
      exact absurd hin hbad.2
    · rfl

end Built

/-! ## The theorem -/

/-- **Definite assignment is exact.** For every graph that `vnt_cfg_build` returns, the iteration ends, and
    the check accepts exactly if on every path from every entry each variable is read only where it is in the
    entry's seed or some earlier block of the path has defined it. -/
theorem vntCfgCheckDefiniteAssignment_iff (ir : Hir) (cfg : VntCfg) (h : vntCfgBuild ir = some cfg) :
    (assignmentAnalysis ir cfg).sweep (assignmentAnalysis ir cfg).solve = (assignmentAnalysis ir cfg).solve ∧
      (vntCfgCheckDefiniteAssignment ir cfg = .ok () ↔ AssignedOnPaths ir cfg) := by
  refine ⟨Must.sweep_solve _, ?_⟩
  obtain ⟨hlen, -⟩ := (assignmentAnalysis ir cfg).solve_spec
  rw [check_ok_iff h]
  constructor
  · intro hall i e hi before b block ht hat v huse
    have hb : b ≠ cfg.exitBlock := by
      rintro rfl
      rw [exitBlock_is_exitNode h] at hat
      cases hat
      cases huse
    exact solution_on_trail h hi ht hb (List.getElem?_eq_some_iff.mp hat).1 (hall b block hat v huse)
  · intro hpaths b block hat v huse
    have hblt := (List.getElem?_eq_some_iff.mp hat).1
    have hget := List.getElem?_eq_getElem (hlen.symm ▸ hblt : b < (assignmentAnalysis ir cfg).solve.length)
    rw [hget]
    refine Must.within_solve (consistent_assignedAt h) b _ hget v ⟨uses_known h hat huse, ?_⟩
    exact fun i e hi before ht => hpaths i e hi before b block ht hat v huse

/-- The graph of `brokenLoop`. -/
def brokenLoopCfg : VntCfg := (vntCfgBuild brokenLoop).getD ⟨[], [], 0⟩

theorem brokenLoop_check_iff : vntCfgBuild brokenLoop = some brokenLoopCfg ∧
    (vntCfgCheckDefiniteAssignment brokenLoop brokenLoopCfg = .ok () ↔
      AssignedOnPaths brokenLoop brokenLoopCfg) := by
  have hbuilt : vntCfgBuild brokenLoop = some brokenLoopCfg := by decide +kernel
  exact ⟨hbuilt, (vntCfgCheckDefiniteAssignment_iff brokenLoop brokenLoopCfg hbuilt).2⟩

end Vnt
