import Vnt.Cfg.Simulation

/-!
# `Cfg.Finish` — when a graph is accepted

Everything `vnt_cfg_build` builds has the shape `vnt_cfg_validate` asks for, so building fails for one reason
only: the exit block cannot be reached from any entry and is pruned away. Through the simulation that is a
statement about the program: no body can run to its end or to a `return`.
-/

namespace Vnt

open Lib

/-! ## Every built block is valid -/

/-- Every block from position `from_` on has the property `P`. -/
def AllFrom (from_ : Nat) (P : Nat → VntCfgBlock → Prop) (blocks : List VntCfgBlock) : Prop :=
  ∀ (i : Nat) (block : VntCfgBlock), from_ ≤ i → blocks[i]? = some block → P i block

theorem AllFrom.empty {from_ : Nat} {P : Nat → VntCfgBlock → Prop} {blocks : List VntCfgBlock}
    (h : blocks.length ≤ from_) : AllFrom from_ P blocks := by
  intro i block hi hat
  rw [List.getElem?_eq_none (by omega)] at hat
  cases hat

theorem AllFrom.mono {from_ : Nat} {P Q : Nat → VntCfgBlock → Prop} {blocks : List VntCfgBlock}
    (h : AllFrom from_ P blocks) (hPQ : ∀ i block, P i block → Q i block) : AllFrom from_ Q blocks :=
  fun i block hi hat => hPQ i block (h i block hi hat)

/-- One more block at the end. -/
theorem AllFrom.append {from_ : Nat} {P : Nat → VntCfgBlock → Prop} {blocks : List VntCfgBlock}
    {block : VntCfgBlock} (h : AllFrom from_ P blocks) (hb : P blocks.length block) :
    AllFrom from_ P (blocks ++ [block]) := by
  intro i b hi hat
  rcases Nat.lt_trichotomy i blocks.length with hlt | rfl | hgt
  · rw [List.getElem?_append_left hlt] at hat
    exact h i b hi hat
  · rw [List.getElem?_concat_length] at hat
    cases hat
    exact hb
  · rw [List.getElem?_eq_none (by simp; omega)] at hat
    cases hat

/-- Blocks kept by an extension, and the new ones. -/
theorem AllFrom.extend {from_ : Nat} {P : Nat → VntCfgBlock → Prop} {built new : List VntCfgBlock}
    (h : AllFrom from_ P built) (hnew : AllFrom built.length P (built ++ new)) :
    AllFrom from_ P (built ++ new) := by
  intro i b hi hat
  by_cases hlt : i < built.length
  · rw [List.getElem?_append_left hlt] at hat
    exact h i b hi hat
  · exact hnew i b (by omega) hat

/-- A loop: the rest of the chain, the patched test, and the body behind it. -/
theorem AllFrom.loop {from_ : Nat} {P : Nat → VntCfgBlock → Prop} {mid new : List VntCfgBlock}
    {test test' : VntCfgBlock} (h : AllFrom from_ P mid) (ht : P mid.length test')
    (hnew : AllFrom (mid ++ [test]).length P (mid ++ [test] ++ new)) :
    AllFrom from_ P ((mid ++ [test] ++ new).set mid.length test') := by
  intro j block hj hat
  rcases Nat.lt_trichotomy j mid.length with hlt | rfl | hgt
  · rw [List.getElem?_set_ne (by omega), List.append_assoc, List.getElem?_append_left hlt] at hat
    exact h j block hj hat
  · rw [List.getElem?_set_self (by simp)] at hat
    cases hat
    exact ht
  · rw [List.getElem?_set_ne (by omega)] at hat
    exact hnew j block (by simp only [List.length_append, List.length_singleton]; omega) hat

/-- All blocks from `from_` on are valid among `count` blocks. -/
def ValidFrom (from_ count : Nat) (blocks : List VntCfgBlock) : Prop :=
  AllFrom from_ (fun i block => validateBlock count 0 i block = true) blocks

theorem validateBlock_mono {count count' exitBlock i : Nat} {block : VntCfgBlock} (hc : count ≤ count')
    (h : validateBlock count exitBlock i block = true) : validateBlock count' exitBlock i block = true := by
  unfold validateBlock at *
  rw [Bool.and_eq_true, List.all_eq_true] at *
  refine ⟨fun t ht => ?_, h.2⟩
  have := h.1 t ht
  simp only [decide_eq_true_eq] at *
  omega

theorem validateBlock_straight {count i next : Nat} {node : Hir} {term : VntCfgTerminator} (hn : next < count)
    (hterm : term = .fallthrough ∨ term = .jump ∨ (term = .returnNode ∧ next = 0)) :
    validateBlock count 0 i (straight node next term) = true := by
  rcases hterm with rfl | rfl | ⟨rfl, rfl⟩ <;>
    simp [validateBlock, straight, VntCfgBlock.successors, hn]

theorem validateBlock_branching {count i yes no : Nat} {c : Hir} (hy : yes < count) (hn : no < count) :
    validateBlock count 0 i (branching c (some yes) no) = true := by
  simp [validateBlock, branching, VntCfgBlock.successors, hy, hn]

theorem ValidFrom.mono {from_ count count' : Nat} {blocks : List VntCfgBlock}
    (h : ValidFrom from_ count blocks) (hc : count ≤ count') : ValidFrom from_ count' blocks :=
  AllFrom.mono h fun _ _ hb => validateBlock_mono hc hb

/-- One more valid block. -/
theorem ValidFrom.newBlock {from_ e : Nat} {mid after : List VntCfgBlock} {block : VntCfgBlock}
    (h : ValidFrom from_ mid.length mid) (hnew : newBlock mid block = (after, e))
    (hb : validateBlock (mid.length + 1) 0 mid.length block = true) :
    e < after.length ∧ ValidFrom from_ after.length after := by
  cases hnew
  refine ⟨by simp, ?_⟩
  rw [List.length_append, List.length_singleton]
  exact AllFrom.append (h.mono (Nat.le_succ _)) hb

theorem ValidFrom.extend {from_ count count' : Nat} {built new : List VntCfgBlock}
    (h : ValidFrom from_ count built) (hc : count ≤ count') (hnew : ValidFrom built.length count' (built ++ new)) :
    ValidFrom from_ count' (built ++ new) := AllFrom.extend (h.mono hc) hnew

/-- A target inside the array so far. -/
def Inside (count : Nat) (target : Option Nat) : Prop := ∀ t, target = some t → t < count

theorem Inside.mono {count count' : Nat} {target : Option Nat} (h : Inside count target) (hc : count ≤ count') :
    Inside count' target := fun t ht => Nat.lt_of_lt_of_le (h t ht) hc

theorem buildSequence_length {h : Hir} {next e : Nat} {break_ continue_ : Option Nat}
    {before after : List VntCfgBlock} (hb : buildSequence h next break_ continue_ before = some (after, e)) :
    before.length ≤ after.length := by
  obtain ⟨new, rfl⟩ := (buildSequence_built h hb).1
  simp

/-- **Building adds valid blocks.** -/
theorem buildSequence_valid (h : Hir) : ∀ {next e : Nat} {break_ continue_ : Option Nat}
    {before after : List VntCfgBlock}, buildSequence h next break_ continue_ before = some (after, e) →
      next < before.length → Inside before.length break_ → Inside before.length continue_ →
      e < after.length ∧ ValidFrom before.length after.length after := by
  induction h with
  | nil =>
      intro next e _ _ before after hb hnext _ _
      cases hb
      exact ⟨hnext, .empty (Nat.le_refl _)⟩
  | leaf i op n hn =>
      intro next e break_ continue_ before after hb hnext hbreak hcontinue
      simp only [buildSequence, bind, Option.bind_eq_some_iff] at hb
      obtain ⟨⟨mid, m⟩, hmid, hb⟩ := hb
      obtain ⟨hm, hvalid⟩ := hn hmid hnext hbreak hcontinue
      have hlen := buildSequence_length hmid
      cases op with
      | breakNode =>
          obtain ⟨t, ht, hb⟩ := Option.bind_eq_some_iff.mp hb
          have htl := hbreak.mono hlen t ht
          exact hvalid.newBlock (Option.some.inj hb) (validateBlock_straight (by omega) (.inr (.inl rfl)))
      | continueNode =>
          obtain ⟨t, ht, hb⟩ := Option.bind_eq_some_iff.mp hb
          have htl := hcontinue.mono hlen t ht
          exact hvalid.newBlock (Option.some.inj hb) (validateBlock_straight (by omega) (.inr (.inl rfl)))
      | struct name names =>
          cases hb
          exact ⟨hm, hvalid⟩
      | _ => exact hvalid.newBlock (Option.some.inj hb) (validateBlock_straight (by omega) (.inl rfl))
  | one i op a n ha hn =>
      intro next e break_ continue_ before after hb hnext hbreak hcontinue
      simp only [buildSequence, bind, Option.bind_eq_some_iff] at hb
      obtain ⟨⟨mid, m⟩, hmid, hb⟩ := hb
      obtain ⟨hm, hvalid⟩ := hn hmid hnext hbreak hcontinue
      have hlen := buildSequence_length hmid
      cases op with
      | program =>
          obtain ⟨he, hvalid'⟩ := ha hb hm (hbreak.mono hlen) (hcontinue.mono hlen)
          obtain ⟨new, rfl⟩ := (buildSequence_built a hb).1
          exact ⟨he, hvalid.extend (by simp) hvalid'⟩
      | returnNode =>
          exact hvalid.newBlock (Option.some.inj hb)
            (validateBlock_straight (by omega) (.inr (.inr ⟨rfl, rfl⟩)))
      | function name names =>
          cases hb
          exact ⟨hm, hvalid⟩
      | _ => exact hvalid.newBlock (Option.some.inj hb) (validateBlock_straight (by omega) (.inl rfl))
  | two i op a b n _ hbody hn =>
      intro next e break_ continue_ before after hb hnext hbreak hcontinue
      simp only [buildSequence, bind, Option.bind_eq_some_iff] at hb
      obtain ⟨⟨mid, m⟩, hmid, hb⟩ := hb
      obtain ⟨hm, hvalid⟩ := hn hmid hnext hbreak hcontinue
      cases op with
      | whileNode =>
          simp only at hb
          split at hb
          · cases hb
          · simp only [newBlock, Option.bind_eq_some_iff, Option.some.injEq, Prod.mk.injEq] at hb
            obtain ⟨⟨mid', entry⟩, hloop, rfl, rfl⟩ := hb
            obtain ⟨he, hvalid'⟩ := hbody hloop (by simp)
              (by rintro t ⟨⟩; simp only [List.length_append]; omega) (by rintro t ⟨⟩; simp)
            obtain ⟨new, rfl⟩ := (buildSequence_built b hloop).1
            simp only [List.length_append, List.length_singleton] at he hvalid'
            simp only [List.length_set, List.length_append, List.length_singleton]
            refine ⟨by omega, AllFrom.loop (hvalid.mono (by omega)) ?_ ?_⟩
            · exact validateBlock_branching he (by omega)
            · rw [List.length_append, List.length_singleton]
              exact hvalid'
      | _ => exact hvalid.newBlock (Option.some.inj hb) (validateBlock_straight (by omega) (.inl rfl))
  | ifNode i c t e n _ ht he hn =>
      intro next entry break_ continue_ before after hb hnext hbreak hcontinue
      simp only [buildSequence, bind, Option.bind_eq_some_iff] at hb
      obtain ⟨⟨mid, m⟩, hmid, hb⟩ := hb
      obtain ⟨hm, hvalid⟩ := hn hmid hnext hbreak hcontinue
      have hlen := buildSequence_length hmid
      split at hb
      · cases hb
      · simp only [Option.bind_eq_some_iff, Option.some.injEq] at hb
        obtain ⟨⟨mid₁, yes⟩, hyes, ⟨mid₂, no⟩, hno, hnew⟩ := hb
        dsimp only at hno hnew
        have hlen₁ := buildSequence_length hyes
        have hlen₂ := buildSequence_length hno
        obtain ⟨hy, hvalid₁⟩ := ht hyes hm (hbreak.mono hlen) (hcontinue.mono hlen)
        obtain ⟨hn, hvalid₂⟩ := he hno (by omega) (hbreak.mono (by omega)) (hcontinue.mono (by omega))
        obtain ⟨new₁, rfl⟩ := (buildSequence_built t hyes).1
        obtain ⟨new₂, rfl⟩ := (buildSequence_built e hno).1
        exact ((hvalid.extend hlen₁ hvalid₁).extend hlen₂ hvalid₂).newBlock hnew
          (validateBlock_branching (by omega) (by omega))

theorem buildEntries_valid (bodies : List Hir) : ∀ {before after : List VntCfgBlock} {entries : List Nat},
    buildEntries bodies before = some (after, entries) → 0 < before.length →
      (∀ e ∈ entries, e < after.length) ∧ ValidFrom before.length after.length after := by
  induction bodies with
  | nil =>
      intro before after entries hb _
      cases hb
      exact ⟨by simp, .empty (Nat.le_refl _)⟩
  | cons body bodies ih =>
      intro before after entries hb hpos
      simp only [buildEntries, bind, Option.bind_eq_some_iff, Option.some.injEq, Prod.mk.injEq] at hb
      obtain ⟨⟨mid, entry⟩, hbody, ⟨last, entries'⟩, hrest, rfl, rfl⟩ := hb
      dsimp only at hrest
      have hlen := buildSequence_length hbody
      obtain ⟨hentry, hvalid⟩ := buildSequence_valid body hbody hpos (by rintro _ ⟨⟩) (by rintro _ ⟨⟩)
      obtain ⟨hentries, hvalid'⟩ := ih hrest (by omega)
      obtain ⟨new, rfl⟩ := (buildEntries_built bodies hrest).1
      refine ⟨?_, hvalid.extend (by simp) hvalid'⟩
      intro e he
      rcases List.mem_cons.mp he with rfl | he
      · simp only [List.length_append]
        omega
      · exact hentries e he

/-- The graph as built: entries and blocks are valid. -/
theorem buildBlocks_valid {ir : Hir} {cfg : VntCfg} (h : buildBlocks ir = some cfg) :
    cfg.exitBlock = 0 ∧ 0 < cfg.blocks.length ∧ (∀ e ∈ cfg.entries, e < cfg.blocks.length) ∧
      ValidFrom 0 cfg.blocks.length cfg.blocks := by
  simp only [buildBlocks, bind, Option.bind_eq_some_iff, Option.some.injEq] at h
  obtain ⟨⟨blocks, entries⟩, hb, rfl⟩ := h
  obtain ⟨hentries, hvalid⟩ := buildEntries_valid _ hb (by decide)
  obtain ⟨new, rfl⟩ := (buildEntries_built _ hb).1
  have hexit : ValidFrom 0 1 [exitNode] := by
    intro i block _ hat
    cases i with
    | zero => cases hat; rfl
    | succ i => cases hat
  exact ⟨rfl, by simp, hentries, hexit.extend (by simp) hvalid⟩

/-! ## Valid blocks stay valid -/

/-- Either the block stays, or it was a branch on a literal. -/
theorem simplifyBlock_cases (block : VntCfgBlock) : simplifyBlock block = block ∨
    ∃ literal : Bool, block.terminator = .branch ∧
      simplifyBlock block =
        ⟨none, none, if literal then block.trueSuccessor else block.falseSuccessor, none, .jump⟩ := by
  unfold simplifyBlock
  split
  · rename_i literal hterm _
    exact .inr ⟨literal, hterm, rfl⟩
  · exact .inl rfl

theorem validateBlock_simplifyBlock {count exitBlock i : Nat} {block : VntCfgBlock}
    (h : validateBlock count exitBlock i block = true) :
    validateBlock count exitBlock i (simplifyBlock block) = true := by
  rcases simplifyBlock_cases block with heq | ⟨literal, hterm, heq⟩
  · rw [heq]
    exact h
  · rw [heq]
    simp only [validateBlock, hterm, VntCfgBlock.successors, Bool.and_eq_true, List.all_append,
      Option.toList, List.all_nil] at h ⊢
    obtain ⟨⟨hyes, hno⟩, ⟨⟨-, hsome⟩, hsome'⟩, -⟩ := h
    cases literal
    · exact ⟨⟨hno, trivial⟩, ⟨rfl, hsome'⟩, rfl⟩
    · exact ⟨⟨hyes, trivial⟩, ⟨rfl, hsome⟩, rfl⟩

theorem validateBlock_rename {count count' exitBlock i : Nat} {block : VntCfgBlock} {map : Nat → Nat}
    (h : validateBlock count exitBlock i block = true) (hs : ∀ t ∈ block.successors, map t < count') :
    validateBlock count' (map exitBlock) (map i) (block.rename map) = true := by
  unfold validateBlock at h ⊢
  rw [Bool.and_eq_true] at h ⊢
  constructor
  · simp only [VntCfgBlock.successors, VntCfgBlock.rename, List.all_eq_true, List.mem_append,
      Option.mem_toList, Option.map_eq_some_iff, decide_eq_true_eq] at hs ⊢
    rintro t (⟨s, hs', rfl⟩ | ⟨s, hs', rfl⟩)
    · exact hs s (.inl hs')
    · exact hs s (.inr hs')
  · have h' := h.2
    unfold VntCfgBlock.rename
    cases hterm : block.terminator <;> simp_all

/-! ## Reaching the exit -/

/-- In a valid graph without literal branches every successor can be stepped to. -/
theorem steps_of_mem_successors {count exitBlock i t : Nat} {block : VntCfgBlock}
    (hv : validateBlock count exitBlock i block = true) (ht : t ∈ (simplifyBlock block).successors) :
    ∃ es, (simplifyBlock block).Steps es t := by
  have hv' := validateBlock_simplifyBlock hv
  have hcond : (simplifyBlock block).terminator = .branch →
      (simplifyBlock block).condition.bind literalCondition = none := by
    intro hterm
    unfold simplifyBlock at hterm ⊢
    split at hterm
    · cases hterm
    · rename_i hne
      show block.condition.bind literalCondition = none
      cases hlit : block.condition.bind literalCondition with
      | none => rfl
      | some literal => exact absurd hlit (hne literal hterm)
  generalize simplifyBlock block = b at *
  simp only [VntCfgBlock.successors, List.mem_append, Option.mem_toList] at ht
  unfold validateBlock at hv'
  rw [Bool.and_eq_true] at hv'
  have hshape := hv'.2
  unfold VntCfgBlock.Steps
  cases hterm : b.terminator with
  | branch =>
      simp only [hterm, Bool.and_eq_true, Option.isSome_iff_exists] at hshape
      obtain ⟨⟨⟨⟨c, hc⟩, -⟩, -⟩, -⟩ := hshape
      have hlit : literalCondition c = none := by simpa [hc] using hcond hterm
      rcases ht with ht | ht
      · exact ⟨[.test c true], c, true, hc, by simp [Tests, hlit], ht⟩
      · exact ⟨[.test c false], c, false, hc, by simp [Tests, hlit], ht⟩
  | exit =>
      simp only [hterm, Bool.and_eq_true, Option.isNone_iff_eq_none] at hshape
      rcases ht with ht | ht <;> simp_all
  | _ =>
      simp only [hterm, Bool.and_eq_true, Option.isNone_iff_eq_none] at hshape
      rcases ht with ht | ht
      · exact ⟨_, ht, rfl⟩
      · simp_all

/-- Reachability along successors is reachability along paths. -/
theorem path_of_reachable {cfg : VntCfg} (hv : ValidFrom 0 cfg.blocks.length cfg.blocks) {b b' : Nat}
    (h : Relation.ReflTransGen (Edge (simplifyConstantBranches cfg).successors) b b') :
    ∃ k es, Path (simplifyConstantBranches cfg).blocks k b es b' := by
  induction h with
  | refl => exact ⟨0, [], .refl b⟩
  | tail _ hedge ih =>
      obtain ⟨k, es, hp⟩ := ih
      obtain ⟨l, hl, ht⟩ := hedge
      obtain ⟨block, hat, rfl, -⟩ := VntCfg.successors_eq_some.mp hl
      have hat' := hat
      simp only [simplifyConstantBranches, List.getElem?_map, Option.map_eq_some_iff] at hat'
      obtain ⟨raw, hraw, rfl⟩ := hat'
      obtain ⟨es', hstep⟩ := steps_of_mem_successors (hv _ raw (Nat.zero_le _) hraw) ht
      exact ⟨_, _, hp.trans (.step hat hstep (.refl _))⟩

theorem reachable_of_path {cfg : VntCfg} {marked : List Nat} (hm : cfg.reachable = some marked) {k b b' : Nat}
    {es : List CfgEvent} (hp : Path cfg.blocks k b es b') (hb : b ∈ marked) : b' ∈ marked := by
  induction hp with
  | refl => exact hb
  | step at_ edge _ ih =>
      obtain ⟨block, hat, hall⟩ := (VntCfg.reachable_spec hm).2.2.1 _ hb
      rw [at_] at hat
      cases hat
      exact ih (hall _ edge.mem_successors)

/-- With valid blocks and entries the marking loop does not give up. -/
theorem reachable_isSome {cfg : VntCfg} (hentries : ∀ e ∈ cfg.entries, e < cfg.blocks.length)
    (hs : ∀ (b : Nat) (block : VntCfgBlock), cfg.blocks[b]? = some block →
      ∀ t ∈ block.successors, t < cfg.blocks.length) :
    ∃ marked, cfg.reachable = some marked := by
  have hsucc : ∀ b < cfg.blocks.length, ∃ l, cfg.successors b = some l := by
    intro b hb
    refine ⟨_, VntCfg.successors_eq_some.mpr ⟨cfg.blocks[b], List.getElem?_eq_getElem hb, rfl, ?_⟩⟩
    exact hs b _ (List.getElem?_eq_getElem hb)
  have hbound : ∀ x l, cfg.successors x = some l → l ⊆ List.range cfg.blocks.length := by
    intro x l hx t ht
    obtain ⟨block, -, rfl, hall⟩ := VntCfg.successors_eq_some.mp hx
    exact List.mem_range.mpr (hall t ht)
  unfold VntCfg.reachable
  rw [if_pos (by simpa using hentries)]
  cases hx : explore cfg.successors cfg.blocks.length (cfg.entries.foldl push ([], [])) with
  | some marked => exact ⟨marked, rfl⟩
  | none =>
      rw [← List.length_range (n := cfg.blocks.length)] at hx
      obtain ⟨e, he, y, hy, hnone⟩ :=
        (explore_spec hbound fun e he => List.mem_range.mpr (hentries e he)).2 hx
      -- What is reached is a block, and a block has successors.
      have hlt : y < cfg.blocks.length := by
        rcases Relation.ReflTransGen.cases_tail hy with rfl | ⟨z, -, l, hl, hyl⟩
        · exact hentries _ he
        · exact List.mem_range.mp (hbound z l hl hyl)
      obtain ⟨l, hl⟩ := hsucc y hlt
      rw [hl] at hnone
      cases hnone

/-- The pruned graph is valid. -/
theorem vntCfgValidate_prune {cfg cfg' : VntCfg} (hp : pruneUnreachableBlocks cfg = some cfg')
    (hne : cfg.entries ≠ []) (hv : ∀ (i : Nat) (block : VntCfgBlock), cfg.blocks[i]? = some block →
      validateBlock cfg.blocks.length cfg.exitBlock i block = true) : vntCfgValidate cfg' = true := by
  obtain ⟨marked, kept, hm, hmem, hexit, hentries, hexit', -, hsurj, hat⟩ := pruneUnreachableBlocks_ok hp
  obtain ⟨hbound, hsub, hclosed, -⟩ := VntCfg.reachable_spec hm
  have hlt : ∀ b ∈ kept, renumber kept b < cfg'.blocks.length := by
    intro b hb
    have hsome : (cfg'.blocks[renumber kept b]?).isSome := by
      rw [hat b hb]
      simp [hbound b ((hmem b).mp hb)]
    simpa using hsome
  have hkept : ∀ e ∈ cfg'.entries, e < cfg'.blocks.length := by
    intro e he
    rw [hentries] at he
    obtain ⟨e', he', rfl⟩ := List.mem_map.mp he
    exact hlt e' ((hmem e').mpr (hsub e' he'))
  have hpos := hlt _ hexit
  rw [← hexit'] at hpos
  have hblocks : ∀ x ∈ cfg'.blocks.zipIdx,
      validateBlock cfg'.blocks.length cfg'.exitBlock x.2 x.1 = true := by
    rintro ⟨block, i⟩ hx
    have hget : cfg'.blocks[i]? = some block := by
      rw [List.mem_zipIdx_iff_getElem?] at hx
      exact hx
    obtain ⟨b, hb, rfl⟩ := hsurj i (List.getElem?_eq_some_iff.mp hget).1
    rw [hat b hb, Option.map_eq_some_iff] at hget
    obtain ⟨old, hold, rfl⟩ := hget
    rw [hexit']
    refine validateBlock_rename (hv b old hold) fun t ht => hlt t ?_
    obtain ⟨old', hold', hall⟩ := hclosed b ((hmem b).mp hb)
    rw [hold] at hold'
    cases hold'
    exact (hmem t).mpr (hall t ht)
  have hne' : cfg'.entries ≠ [] := by
    rw [hentries]
    simpa using hne
  have hblocks_ne : cfg'.blocks ≠ [] := List.ne_nil_of_length_pos (Nat.lt_of_le_of_lt (Nat.zero_le _) hpos)
  simp only [vntCfgValidate, Bool.and_eq_true, List.all_eq_true, decide_eq_true_eq, Bool.not_eq_true',
    List.isEmpty_eq_false_iff]
  exact ⟨⟨⟨⟨hblocks_ne, hpos⟩, hne'⟩, hkept⟩, hblocks⟩

/-- **The graph is built exactly if some body has a run that finishes.** -/
theorem vntCfgBuild_isSome_iff_runs {ir : Hir} (hv : vntIrValidate ir = true)
    (hx : exitsInLoops false ir = true) :
    (vntCfgBuild ir).isSome = true ↔ ∃ body ∈ ir.bodies, ∃ es o, Runs body es o ∧ o.finishes = true := by
  obtain ⟨⟨blocks, entries⟩, hb⟩ := buildEntries_isSome ir.bodies (bodies_ok hv hx) [exitNode]
  have hcfg : buildBlocks ir = some ⟨blocks, entries, 0⟩ := by simp only [buildBlocks, bind, hb, Option.bind_some]
  obtain ⟨-, hpos, hentries, hvalid⟩ := buildBlocks_valid hcfg
  have hsim := simulates_simplify (simulates_buildBlocks hcfg)
  generalize hraw : (⟨blocks, entries, 0⟩ : VntCfg) = raw at hcfg hpos hentries hvalid hsim
  have hexit0 : raw.exitBlock = 0 := by rw [← hraw]
  have hsimple : ∀ (i : Nat) (block : VntCfgBlock), (simplifyConstantBranches raw).blocks[i]? = some block →
      validateBlock (simplifyConstantBranches raw).blocks.length (simplifyConstantBranches raw).exitBlock i
        block = true := by
    intro i block hat
    simp only [simplifyConstantBranches, List.getElem?_map, Option.map_eq_some_iff] at hat
    obtain ⟨old, hold, rfl⟩ := hat
    simp only [simplifyConstantBranches, List.length_map, hexit0]
    exact validateBlock_simplifyBlock (hvalid i old (Nat.zero_le _) hold)
  obtain ⟨marked, hm⟩ : ∃ marked, (simplifyConstantBranches raw).reachable = some marked := by
    apply reachable_isSome
    · simpa [simplifyConstantBranches] using hentries
    · intro b block hat t ht
      have := hsimple b block hat
      simp only [validateBlock, Bool.and_eq_true, List.all_eq_true, decide_eq_true_eq] at this
      exact this.1 t ht
  have hentry : ∀ {j : Nat} {body : Hir}, ir.bodies[j]? = some body → ∃ e, raw.entries[j]? = some e := by
    intro j body hj
    have hlt := (List.getElem?_eq_some_iff.mp hj).1
    rw [← hsim.1] at hlt
    exact ⟨_, List.getElem?_eq_getElem hlt⟩
  constructor
  · intro hsome
    obtain ⟨cfg, hbuild⟩ := Option.isSome_iff_exists.mp hsome
    simp only [vntCfgBuild, bind, Option.bind_eq_some_iff, Option.ite_none_right_eq_some, hcfg] at hbuild
    obtain ⟨-, _, ⟨⟩, pruned, hp, -, -⟩ := hbuild
    obtain ⟨marked', kept, hm', hmem, hexit, -⟩ := pruneUnreachableBlocks_ok hp
    obtain ⟨e, he, hreach⟩ := (VntCfg.reachable_spec hm').2.2.2 _ ((hmem _).mp hexit)
    obtain ⟨k, es, hpath⟩ := path_of_reachable hvalid hreach
    obtain ⟨j, hj⟩ := List.getElem?_of_mem he
    have hlt := (List.getElem?_eq_some_iff.mp hj).1
    rw [hsim.1] at hlt
    have hbody := List.getElem?_eq_getElem hlt
    obtain ⟨o, hr, hf⟩ := ((hsim.2 j e _ hbody hj es).2).mp ⟨k, hpath⟩
    exact ⟨_, List.mem_of_getElem? hbody, es, o, hr, hf⟩
  · rintro ⟨body, hbody, es, o, hr, hf⟩
    obtain ⟨j, hj⟩ := List.getElem?_of_mem hbody
    obtain ⟨e, he⟩ := hentry hj
    obtain ⟨k, hpath⟩ := ((hsim.2 j e body hj he es).2).mpr ⟨o, hr, hf⟩
    have hexit : (simplifyConstantBranches raw).exitBlock ∈ marked :=
      reachable_of_path hm hpath ((VntCfg.reachable_spec hm).2.1 e (List.mem_of_getElem? he))
    have hkept : (simplifyConstantBranches raw).exitBlock ∈
        (List.range (simplifyConstantBranches raw).blocks.length).filter (· ∈ marked) := by
      simp only [List.mem_filter, List.mem_range, decide_eq_true_eq]
      exact ⟨(VntCfg.reachable_spec hm).1 _ hexit, hexit⟩
    have hprune : ∃ pruned, pruneUnreachableBlocks (simplifyConstantBranches raw) = some pruned := by
      simp only [pruneUnreachableBlocks, bind, hm, Option.bind_some, if_pos hkept]
      exact ⟨_, rfl⟩
    obtain ⟨pruned, hp⟩ := hprune
    have hne : (simplifyConstantBranches raw).entries ≠ [] := List.ne_nil_of_mem (List.mem_of_getElem? he)
    simp only [vntCfgBuild, bind, hv, hcfg, hp, vntCfgValidate_prune hp hne hsimple, if_true, Option.bind_some,
      Option.isSome_some]

/-! ## How a body can end -/

/-- `condition` can come out as `outcome`: a literal only as itself. -/
def mayTest (condition : Hir) (outcome : Bool) : Bool :=
  match literalCondition condition with
  | some b => outcome == b
  | none => true

/-- The sequence can end with `o`, as far as the nesting and the literal conditions tell. -/
def mayEnd : Hir → Outcome → Bool
  | .nil, o => o == .normal
  | .leaf _ op n, o =>
      match op with
      | .breakNode => o == .broke
      | .continueNode => o == .continued
      | _ => mayEnd n o
  | .one _ op a n, o =>
      match op with
      | .returnNode => o == .returned
      | .program => (mayEnd a .normal && mayEnd n o) || (o != .normal && mayEnd a o)
      | _ => mayEnd n o
  | .two _ op a b n, o =>
      match op with
      | .whileNode =>
          ((mayTest a.head false || (mayTest a.head true && mayEnd b .broke)) && mayEnd n o)
            || (mayTest a.head true && o == .returned && mayEnd b .returned)
      | _ => mayEnd n o
  | .ifNode _ c t e n, o =>
      (mayTest c.head true && ((mayEnd t .normal && mayEnd n o) || (o != .normal && mayEnd t o)))
        || (mayTest c.head false && ((mayEnd e .normal && mayEnd n o) || (o != .normal && mayEnd e o)))

theorem mayTest_iff {c : Hir} {outcome : Bool} : mayTest c outcome = true ↔ ∃ es, Tests c outcome es := by
  unfold mayTest Tests
  cases literalCondition c with
  | some b => simp
  | none => simp

theorem Tests.mayTest {c : Hir} {outcome : Bool} {es : List CfgEvent} (h : Tests c outcome es) :
    mayTest c outcome = true := mayTest_iff.mpr ⟨es, h⟩

theorem Runs.mayEnd {h : Hir} {es : List CfgEvent} {o : Outcome} (hr : Runs h es o) :
    o ≠ .cut → mayEnd h o = true := by
  induction hr with
  | nil => intro _; rfl
  | cut h => intro ho; exact absurd rfl ho
  | @leaf i op n es o plain _ ih =>
      intro ho
      cases op <;> first | exact ih ho | exact Bool.noConfusion plain
  | @one i op a n es o plain _ ih =>
      intro ho
      cases op <;> first | exact ih ho | exact Bool.noConfusion plain
  | @two i op a b n es o plain _ ih =>
      intro ho
      cases op <;> first | exact ih ho | exact Bool.noConfusion plain
  | struct _ ih => exact ih
  | function _ ih => exact ih
  | break_ => intro _; rfl
  | continue_ => intro _; rfl
  | return_ => intro _; rfl
  | program _ _ iha ihn =>
      intro ho
      simp [Vnt.mayEnd, iha (by decide), ihn ho]
  | programOut _ out iha =>
      intro ho
      simp [Vnt.mayEnd, iha ho, out]
  | @arm i c t e n outcome es es' es'' o test _ _ ihb ihn =>
      intro ho
      have hb := ihb (by decide)
      cases outcome <;> simp only [if_true, Bool.false_eq_true, if_false] at hb <;>
        simp [Vnt.mayEnd, test.mayTest, hb, ihn ho]
  | @armOut i c t e n outcome es es' o test _ out ihb =>
      intro ho
      have hb := ihb ho
      cases outcome <;> simp only [if_true, Bool.false_eq_true, if_false] at hb <;>
        simp [Vnt.mayEnd, test.mayTest, hb, out]
  | done test _ ihn =>
      intro ho
      simp [Vnt.mayEnd, test.mayTest, ihn ho]
  | again _ _ _ _ _ ihr => exact ihr
  | left test _ _ ihb ihn =>
      intro ho
      simp [Vnt.mayEnd, test.mayTest, ihb (by decide), ihn ho]
  | loopOut test _ out ihb =>
      intro ho
      rcases out with rfl | rfl
      · simp [Vnt.mayEnd, test.mayTest, ihb (by decide)]
      · exact absurd rfl ho

/-- A sequence that may end so has a run that does. -/
theorem exists_runs (h : Hir) : ∀ {o : Outcome}, mayEnd h o = true → ∃ es, Runs h es o := by
  -- A block and the rest behind it.
  have seq : ∀ {a n : Hir} {o : Outcome}, (∀ {o}, mayEnd a o = true → ∃ es, Runs a es o) →
      (∀ {o}, mayEnd n o = true → ∃ es, Runs n es o) →
      ((mayEnd a .normal && mayEnd n o) || (o != .normal && mayEnd a o)) = true →
      (∃ es es', Runs a es .normal ∧ Runs n es' o) ∨ (o ≠ .normal ∧ ∃ es, Runs a es o) := by
    intro a n o ha hn h
    simp only [Bool.or_eq_true, Bool.and_eq_true, bne_iff_ne] at h
    rcases h with ⟨h₁, h₂⟩ | ⟨ho, h₁⟩
    · obtain ⟨es, hr⟩ := ha h₁
      obtain ⟨es', hr'⟩ := hn h₂
      exact .inl ⟨es, es', hr, hr'⟩
    · exact .inr ⟨ho, ha h₁⟩
  induction h with
  | nil =>
      intro o h
      rw [beq_iff_eq.mp h]
      exact ⟨[], .nil⟩
  | leaf i op n hn =>
      intro o h
      cases op with
      | breakNode =>
          rw [beq_iff_eq.mp h]
          exact ⟨_, .break_⟩
      | continueNode =>
          rw [beq_iff_eq.mp h]
          exact ⟨_, .continue_⟩
      | struct name names =>
          obtain ⟨es, hr⟩ := hn h
          exact ⟨es, .struct hr⟩
      | _ =>
          obtain ⟨es, hr⟩ := hn h
          exact ⟨_, .leaf rfl hr⟩
  | one i op a n ha hn =>
      intro o h
      cases op with
      | returnNode =>
          rw [beq_iff_eq.mp h]
          exact ⟨_, .return_⟩
      | program =>
          rcases seq ha hn h with ⟨es, es', hr, hr'⟩ | ⟨ho, es, hr⟩
          · exact ⟨_, .program hr hr'⟩
          · exact ⟨es, .programOut hr ho⟩
      | function name names =>
          obtain ⟨es, hr⟩ := hn h
          exact ⟨es, .function hr⟩
      | _ =>
          obtain ⟨es, hr⟩ := hn h
          exact ⟨_, .one rfl hr⟩
  | two i op a b n _ hb hn =>
      intro o h
      cases op with
      | whileNode =>
          simp only [mayEnd, Bool.or_eq_true, Bool.and_eq_true, beq_iff_eq] at h
          rcases h with ⟨htest | ⟨htest, hbroke⟩, hrest⟩ | ⟨⟨htest, rfl⟩, hreturn⟩
          · obtain ⟨es, ht⟩ := mayTest_iff.mp htest
            obtain ⟨es', hr⟩ := hn hrest
            exact ⟨_, .done ht hr⟩
          · obtain ⟨es, ht⟩ := mayTest_iff.mp htest
            obtain ⟨es', hr⟩ := hb hbroke
            obtain ⟨es'', hr'⟩ := hn hrest
            exact ⟨_, .left ht hr hr'⟩
          · obtain ⟨es, ht⟩ := mayTest_iff.mp htest
            obtain ⟨es', hr⟩ := hb hreturn
            exact ⟨_, .loopOut ht hr (.inl rfl)⟩
      | _ =>
          obtain ⟨es, hr⟩ := hn h
          exact ⟨_, .two rfl hr⟩
  | ifNode i c t e n _ ht he hn =>
      intro o h
      simp only [mayEnd] at h
      rw [Bool.or_eq_true, Bool.and_eq_true, Bool.and_eq_true] at h
      rcases h with ⟨htest, h⟩ | ⟨htest, h⟩
      · obtain ⟨es₀, htest⟩ := mayTest_iff.mp htest
        rcases seq ht hn h with ⟨es, es', hr, hr'⟩ | ⟨ho, es, hr⟩
        · exact ⟨_, .arm htest (by simpa using hr) hr'⟩
        · exact ⟨_, .armOut htest (by simpa using hr) ho⟩
      · obtain ⟨es₀, htest⟩ := mayTest_iff.mp htest
        rcases seq he hn h with ⟨es, es', hr, hr'⟩ | ⟨ho, es, hr⟩
        · exact ⟨_, .arm htest (by simpa using hr) hr'⟩
        · exact ⟨_, .armOut htest (by simpa using hr) ho⟩

/-- The top level or some function can run to its end or to a `return`. -/
def canFinish (ir : Hir) : Bool := ir.bodies.any fun body => mayEnd body .normal || mayEnd body .returned

/-- **The graph is built exactly if something can finish.** -/
theorem vntCfgBuild_isSome_iff {ir : Hir} (hv : vntIrValidate ir = true) (hx : exitsInLoops false ir = true) :
    (vntCfgBuild ir).isSome = true ↔ canFinish ir = true := by
  rw [vntCfgBuild_isSome_iff_runs hv hx, canFinish, List.any_eq_true]
  constructor
  · rintro ⟨body, hbody, es, o, hr, hf⟩
    refine ⟨body, hbody, ?_⟩
    rw [Bool.or_eq_true]
    cases o with
    | normal => exact .inl (hr.mayEnd (by decide))
    | returned => exact .inr (hr.mayEnd (by decide))
    | _ => cases hf
  · rintro ⟨body, hbody, h⟩
    rw [Bool.or_eq_true] at h
    rcases h with h | h
    · obtain ⟨es, hr⟩ := exists_runs body h
      exact ⟨body, hbody, es, _, hr, rfl⟩
    · obtain ⟨es, hr⟩ := exists_runs body h
      exact ⟨body, hbody, es, _, hr, rfl⟩

end Vnt
