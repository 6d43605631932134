import Vnt.Cfg.Exact
import Vnt.Lib.Backward

/-!
# `Cfg.Liveness` — which variables are read later on

The backward analysis of `vnt_cfg_compute_liveness`: a variable is live at the start of a block when some path from there
reads it before it defines it. The facts of `Lib.Backward` are the variables of the program; a block uses what
`collect_block_effects` marks as read and kills what it marks as defined.
-/

namespace Vnt

open Lib

/-! ## The analysis -/

/-- `VntCfgLiveness`: the rows of the two arrays, each as the variables whose cell is set. -/
structure VntCfgLiveness where
  names : List String
  blockCount : Nat
  liveIn : List (List String)
  liveOut : List (List String)

/-- The instance of the analysis. -/
def livenessAnalysis (ir : Hir) (cfg : VntCfg) : May String where
  count := cfg.blocks.length
  facts := collectVariables ir
  succs b := (cfg.blocks[b]?.map VntCfgBlock.successors).getD []
  use b := (cfg.blocks[b]?.map VntCfgBlock.uses).getD []
  kill b := (cfg.blocks[b]?.map VntCfgBlock.defs).getD []

/-- `vnt_cfg_compute_liveness`. -/
def vntCfgComputeLiveness (ir : Hir) (cfg : VntCfg) : Option VntCfgLiveness :=
  if vntIrValidate ir && vntCfgValidate cfg then
    let sets := (livenessAnalysis ir cfg).solve
    some ⟨collectVariables ir, cfg.blocks.length, sets.ins, sets.outs⟩
  else none

/-- `vnt_cfg_variable_live_in`. -/
def vntCfgVariableLiveIn (a : VntCfgLiveness) (block : Nat) (name : String) : Bool :=
  if block ≥ a.blockCount then false else a.names.contains name && (a.liveIn[block]?.getD []).contains name

/-- `vnt_cfg_variable_live_out`. -/
def vntCfgVariableLiveOut (a : VntCfgLiveness) (block : Nat) (name : String) : Bool :=
  if block ≥ a.blockCount then false else a.names.contains name && (a.liveOut[block]?.getD []).contains name

/-! ## Liveness on paths -/

/-- A path from `b` reaches a block that reads `x`, and no earlier block of it defines `x`. -/
def ReadLater (cfg : VntCfg) (b : Nat) (x : String) : Prop :=
  ∃ before last block, Trail cfg.blocks b before last ∧ cfg.blocks[last]? = some block ∧ x ∈ block.uses ∧
    ¬DefinedIn cfg.blocks before x

variable {ir : Hir} {cfg : VntCfg} {b t last : Nat} {before : List Nat} {block : VntCfgBlock} {x : String}

/-- A path with a block put in front. -/
theorem Trail.cons (hat : cfg.blocks[b]? = some block) (ht : t ∈ block.successors) (h : Trail cfg.blocks t before last) :
    Trail cfg.blocks b (b :: before) last := by
  induction h with
  | start => exact Trail.step (.start : Trail cfg.blocks b [] b) hat ht
  | step _ hat' edge ih => exact Trail.step ih hat' edge

/-- A path is its first block, and another path. -/
theorem Trail.uncons (h : Trail cfg.blocks b before last) : (before = [] ∧ last = b) ∨
    ∃ rest t block, before = b :: rest ∧ cfg.blocks[b]? = some block ∧ t ∈ block.successors ∧
      Trail cfg.blocks t rest last := by
  induction h with
  | start => exact Or.inl ⟨rfl, rfl⟩
  | step rest hat edge ih =>
      rename_i before last t block
      rcases ih with ⟨rfl, rfl⟩ | ⟨rest', t', block', rfl, hat', ht', htrail⟩
      · exact Or.inr ⟨[], t, block, rfl, hat, edge, .start⟩
      · exact Or.inr ⟨rest' ++ [last], t', block', rfl, hat', ht', htrail.step hat edge⟩

theorem definedIn_cons (hat : cfg.blocks[b]? = some block) :
    DefinedIn cfg.blocks (b :: before) x ↔ x ∈ block.defs ∨ DefinedIn cfg.blocks before x := by
  constructor
  · rintro ⟨p, hp, block', hat', hx⟩
    rcases List.mem_cons.mp hp with rfl | hp
    · rw [hat] at hat'
      cases hat'
      exact Or.inl hx
    · exact Or.inr ⟨p, hp, block', hat', hx⟩
  · rintro (hx | ⟨p, hp, h⟩)
    · exact ⟨b, List.mem_cons_self, block, hat, hx⟩
    · exact ⟨p, List.mem_cons_of_mem b hp, h⟩

/-! ### The rows of one block -/

theorem livenessAnalysis_at (ir : Hir) (hat : cfg.blocks[b]? = some block) : b < (livenessAnalysis ir cfg).count ∧
    (livenessAnalysis ir cfg).succs b = block.successors ∧ (livenessAnalysis ir cfg).use b = block.uses ∧
    (livenessAnalysis ir cfg).kill b = block.defs := by
  refine ⟨(List.getElem?_eq_some_iff.mp hat).1, ?_, ?_, ?_⟩
  · show (cfg.blocks[b]?.map VntCfgBlock.successors).getD [] = _
    rw [hat]
    rfl
  · show (cfg.blocks[b]?.map VntCfgBlock.uses).getD [] = _
    rw [hat]
    rfl
  · show (cfg.blocks[b]?.map VntCfgBlock.defs).getD [] = _
    rw [hat]
    rfl

theorem exists_block (ir : Hir) (hb : b < (livenessAnalysis ir cfg).count) : ∃ block, cfg.blocks[b]? = some block :=
  ⟨_, List.getElem?_eq_getElem hb⟩

/-- What the analysis derives is what some path does. -/
theorem readLater_of_live (h : May.Live (livenessAnalysis ir cfg) b x) : ReadLater cfg b x := by
  induction h with
  | use hb _ huse =>
      obtain ⟨block, hat⟩ := exists_block ir hb
      rw [(livenessAnalysis_at ir hat).2.2.1] at huse
      exact ⟨[], _, block, .start, hat, huse, fun ⟨p, hp, _⟩ => nomatch hp⟩
  | flow hb hkill ht _ ih =>
      obtain ⟨block, hat⟩ := exists_block ir hb
      obtain ⟨-, hsuccs, -, hdefs⟩ := livenessAnalysis_at ir hat
      rw [hsuccs] at ht
      rw [hdefs] at hkill
      obtain ⟨before, last, block', htrail, hat', huse, hclear⟩ := ih
      refine ⟨_ :: before, last, block', htrail.cons hat ht, hat', huse, ?_⟩
      rw [definedIn_cons hat, not_or]
      exact ⟨hkill, hclear⟩

/-- A path that reads the variable makes it live at every block before. -/
theorem live_of_readLater (h : vntCfgBuild ir = some cfg) (hread : ReadLater cfg b x) :
    May.Live (livenessAnalysis ir cfg) b x := by
  obtain ⟨before, last, block, htrail, hat, huse, hclear⟩ := hread
  induction before generalizing b with
  | nil =>
      rcases htrail.uncons with ⟨-, rfl⟩ | ⟨rest, t, block', hnil, -⟩
      · obtain ⟨hb, -, huses, -⟩ := livenessAnalysis_at ir hat
        refine .use hb (uses_known h hat huse) ?_
        rw [huses]
        exact huse
      · cases hnil
  | cons c before ih =>
      rcases htrail.uncons with ⟨hnil, -⟩ | ⟨rest, t, block', hcons, hat', ht, htrail'⟩
      · cases hnil
      · cases hcons
        rw [definedIn_cons hat', not_or] at hclear
        obtain ⟨hb, hsuccs, -, hdefs⟩ := livenessAnalysis_at ir hat'
        have hlive := ih htrail' hclear.2
        refine .flow hb ?_ ?_ hlive
        · rw [hdefs]
          exact hclear.1
        · rw [hsuccs]
          exact ht

/-! ## The theorem -/

/-- What an analysis owes its callers. -/
structure LivenessExact (cfg : VntCfg) (a : VntCfgLiveness) : Prop where
  liveIn : ∀ b x, vntCfgVariableLiveIn a b x = true ↔ ReadLater cfg b x
  liveOut : ∀ b x, vntCfgVariableLiveOut a b x = true ↔
    ∃ block, cfg.blocks[b]? = some block ∧ ∃ t ∈ block.successors, vntCfgVariableLiveIn a t x = true

theorem liveIn_eq_live (x : String) (b : Nat) :
    vntCfgVariableLiveIn ⟨collectVariables ir, cfg.blocks.length, (livenessAnalysis ir cfg).solve.ins,
      (livenessAnalysis ir cfg).solve.outs⟩ b x = true ↔ May.Live (livenessAnalysis ir cfg) b x := by
  rw [← May.mem_ins_iff]
  unfold vntCfgVariableLiveIn
  by_cases hb : b ≥ cfg.blocks.length
  · rw [if_pos hb]
    constructor
    · exact nofun
    · intro hmem
      have hlt := ((May.mem_ins_iff _ b x).mp hmem).known.1
      exact absurd hlt (Nat.not_lt_of_le hb)
  · rw [if_neg hb, Bool.and_eq_true, List.contains_iff_mem, List.contains_iff_mem]
    constructor
    · exact fun hmem => hmem.2
    · exact fun hmem => ⟨((May.mem_ins_iff _ b x).mp hmem).known.2, hmem⟩

/-- **Liveness is exact.** For every graph that `vnt_cfg_build` returns, the iteration ends, and a variable is live at the
    start of a block if and only if a path from there reads it before it defines it; at the end of a block, if and only if it
    is live at the start of a successor. -/
theorem vntCfgComputeLiveness_exact (ir : Hir) (cfg : VntCfg) (h : vntCfgBuild ir = some cfg) :
    (livenessAnalysis ir cfg).sweep (livenessAnalysis ir cfg).solve = (livenessAnalysis ir cfg).solve ∧
      ∃ a, vntCfgComputeLiveness ir cfg = some a ∧ LivenessExact cfg a := by
  have hvalid : (vntIrValidate ir && vntCfgValidate cfg) = true := by
    obtain ⟨-, -, -, hcfg⟩ := vntCfgBuild_ok h
    rw [hcfg, Bool.and_true]
    by_contra hir
    unfold vntCfgBuild at h
    rw [if_neg hir] at h
    cases h
  refine ⟨May.sweep_solve _, _, if_pos hvalid, ?_, ?_⟩
  · intro b x
    rw [liveIn_eq_live]
    exact ⟨readLater_of_live, live_of_readLater h⟩
  · intro b x
    simp only [liveIn_eq_live]
    unfold vntCfgVariableLiveOut
    by_cases hb : b ≥ cfg.blocks.length
    · rw [if_pos hb]
      constructor
      · exact nofun
      · rintro ⟨block, hat, -⟩
        have hlt := (List.getElem?_eq_some_iff.mp hat).1
        exact absurd hlt (Nat.not_lt_of_le hb)
    · obtain ⟨block, hat⟩ := exists_block ir (Nat.lt_of_not_le hb)
      obtain ⟨-, hsuccs, -⟩ := livenessAnalysis_at ir hat
      have houts := May.mem_outs_iff (livenessAnalysis ir cfg) b x
      rw [hsuccs] at houts
      rw [if_neg hb, Bool.and_eq_true, List.contains_iff_mem, List.contains_iff_mem]
      constructor
      · rintro ⟨-, hout⟩
        exact ⟨block, hat, (houts.mp hout).2⟩
      · rintro ⟨block', hat', t, ht, hlive⟩
        rw [hat] at hat'
        cases hat'
        exact ⟨hlive.known.2, houts.mpr ⟨Nat.lt_of_not_le hb, t, ht, hlive⟩⟩

theorem brokenLoop_live : vntCfgBuild brokenLoop = some brokenLoopCfg ∧
    ∃ a, vntCfgComputeLiveness brokenLoop brokenLoopCfg = some a ∧ LivenessExact brokenLoopCfg a := by
  have hbuilt : vntCfgBuild brokenLoop = some brokenLoopCfg := by decide +kernel
  exact ⟨hbuilt, (vntCfgComputeLiveness_exact brokenLoop brokenLoopCfg hbuilt).2⟩

end Vnt
