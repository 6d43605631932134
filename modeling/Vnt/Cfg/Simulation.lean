import Vnt.Cfg.Paths

/-!
# `Cfg.Simulation` — the graph simulates the structured program

`buildSequence` puts the blocks of a chain where `Built` says, whatever is added to the array later. Folding
constant branches changes no edge that can be taken, and pruning renames the blocks that are kept; so the
event sequences from every entry are those of the structured body, before and after.
-/

namespace Vnt

open Lib

/-! ## Building -/

/-- The blocks from `from_` on are final: `blocks` agrees there with what was built. -/
def KeepsFrom (from_ : Nat) (built blocks : List VntCfgBlock) : Prop :=
  ∀ j, from_ ≤ j → j < built.length → blocks[j]? = built[j]?

theorem KeepsFrom.self (from_ : Nat) (built : List VntCfgBlock) : KeepsFrom from_ built built :=
  fun _ _ _ => rfl

/-- An earlier stage of the array that was only appended to. -/
theorem KeepsFrom.earlier {from_ from' : Nat} {built new blocks : List VntCfgBlock}
    (h : KeepsFrom from_ (built ++ new) blocks) (hf : from_ ≤ from') : KeepsFrom from' built blocks := by
  intro j hj hl
  rw [h j (by omega) (by simp only [List.length_append]; omega), List.getElem?_append_left hl]

theorem KeepsFrom.later {from_ from' : Nat} {built blocks : List VntCfgBlock}
    (h : KeepsFrom from_ built blocks) (hf : from_ ≤ from') : KeepsFrom from' built blocks :=
  fun j hj hl => h j (by omega) hl

/-- The block added last. -/
theorem KeepsFrom.last {from_ : Nat} {built blocks : List VntCfgBlock} {block : VntCfgBlock}
    (h : KeepsFrom from_ (built ++ [block]) blocks) (hf : from_ ≤ built.length) :
    blocks[built.length]? = some block := by
  rw [h built.length hf (by simp)]
  simp

/-- `after` extends `before`, and the chain is built as long as the new blocks stay. -/
def BuiltIn (before after : List VntCfgBlock) (h : Hir) (e next : Nat) (break_ continue_ : Option Nat) : Prop :=
  (∃ new, after = before ++ new) ∧
    ∀ blocks, KeepsFrom before.length after blocks → Built blocks h e next break_ continue_

/-- One more block behind the rest of its chain. -/
theorem BuiltIn.newBlock {before mid after : List VntCfgBlock} {n h : Hir} {m e next : Nat}
    {break_ continue_ : Option Nat} {block : VntCfgBlock} (hn : BuiltIn before mid n m next break_ continue_)
    (hnew : newBlock mid block = (after, e))
    (rule : ∀ blocks, Built blocks n m next break_ continue_ → blocks[e]? = some block →
      Built blocks h e next break_ continue_) :
    BuiltIn before after h e next break_ continue_ := by
  obtain ⟨⟨new, rfl⟩, hn⟩ := hn
  cases hnew
  refine ⟨⟨new ++ [block], List.append_assoc ..⟩, fun blocks hk => ?_⟩
  exact rule blocks (hn blocks (hk.earlier (Nat.le_refl _))) (hk.last (by simp))

/-- **`buildSequence` builds.** -/
theorem buildSequence_built (h : Hir) : ∀ {next e : Nat} {break_ continue_ : Option Nat}
    {before after : List VntCfgBlock}, buildSequence h next break_ continue_ before = some (after, e) →
      BuiltIn before after h e next break_ continue_ := by
  induction h with
  | nil =>
      intro next e _ _ before after hb
      cases hb
      exact ⟨⟨[], (List.append_nil _).symm⟩, fun _ _ => rfl⟩
  | leaf i op n hn =>
      intro next e break_ continue_ before after hb
      simp only [buildSequence, bind, Option.bind_eq_some_iff] at hb
      obtain ⟨⟨mid, m⟩, hmid, hb⟩ := hb
      have hrest := hn hmid
      cases op with
      | breakNode =>
          obtain ⟨t, ht, hb⟩ := Option.bind_eq_some_iff.mp hb
          exact hrest.newBlock (Option.some.inj hb) fun _ hm hat => ⟨m, hm, t, ht, hat⟩
      | continueNode =>
          obtain ⟨t, ht, hb⟩ := Option.bind_eq_some_iff.mp hb
          exact hrest.newBlock (Option.some.inj hb) fun _ hm hat => ⟨m, hm, t, ht, hat⟩
      | struct name names =>
          cases hb
          exact ⟨hrest.1, fun blocks hk => ⟨_, hrest.2 blocks hk, rfl⟩⟩
      | _ => exact hrest.newBlock (Option.some.inj hb) fun _ hm hat => ⟨m, hm, hat⟩
  | one i op a n ha hn =>
      intro next e break_ continue_ before after hb
      simp only [buildSequence, bind, Option.bind_eq_some_iff] at hb
      obtain ⟨⟨mid, m⟩, hmid, hb⟩ := hb
      have hrest := hn hmid
      cases op with
      | program =>
          obtain ⟨⟨new, rfl⟩, hrest⟩ := hrest
          obtain ⟨⟨new', rfl⟩, hblock⟩ := ha hb
          refine ⟨⟨new ++ new', List.append_assoc ..⟩, fun blocks hk => ⟨m, ?_, ?_⟩⟩
          · exact hrest blocks (hk.earlier (Nat.le_refl _))
          · exact hblock blocks (hk.later (by simp))
      | function name names =>
          cases hb
          exact ⟨hrest.1, fun blocks hk => ⟨_, hrest.2 blocks hk, rfl⟩⟩
      | _ => exact hrest.newBlock (Option.some.inj hb) fun _ hm hat => ⟨m, hm, hat⟩
  | two i op a b n _ hbody hn =>
      intro next e break_ continue_ before after hb
      simp only [buildSequence, bind, Option.bind_eq_some_iff] at hb
      obtain ⟨⟨mid, m⟩, hmid, hb⟩ := hb
      have hrest := hn hmid
      cases op with
      | whileNode =>
          simp only at hb
          split at hb
          · cases hb
          · simp only [newBlock, Option.bind_eq_some_iff, Option.some.injEq, Prod.mk.injEq] at hb
            obtain ⟨⟨mid', entry⟩, hloop, rfl, rfl⟩ := hb
            obtain ⟨⟨new, rfl⟩, hrest⟩ := hrest
            obtain ⟨⟨new', rfl⟩, hloop⟩ := hbody hloop
            -- The patched test sits between the rest of the chain and the body.
            have hset : ((before ++ new ++ [branching a.head none m]) ++ new').set (before ++ new).length
                (branching a.head (some entry) m) =
                before ++ new ++ [branching a.head (some entry) m] ++ new' := by
              rw [List.append_assoc, List.set_append_right _ _ (Nat.le_refl _), List.append_assoc]
              simp
            rw [hset]
            refine ⟨⟨new ++ ([branching a.head (some entry) m] ++ new'), by simp only [List.append_assoc]⟩,
              fun blocks hk => ⟨m, ?_, entry, ?_, ?_⟩⟩
            · rw [List.append_assoc] at hk
              exact hrest blocks (hk.earlier (Nat.le_refl _))
            · exact (hk.earlier (Nat.le_refl _)).last (by simp)
            · apply hloop
              intro j hj hl
              have hlen : (before ++ new ++ [branching a.head none m]).length =
                  (before ++ new ++ [branching a.head (some entry) m]).length := by simp
              rw [hk j (by simp only [List.length_append] at hj ⊢; omega)
                (by simpa using hl),
                List.getElem?_append_right hj, List.getElem?_append_right (hlen ▸ hj), hlen]
      | _ => exact hrest.newBlock (Option.some.inj hb) fun _ hm hat => ⟨m, hm, hat⟩
  | ifNode i c t e n _ ht he hn =>
      intro next entry break_ continue_ before after hb
      simp only [buildSequence, bind, Option.bind_eq_some_iff] at hb
      obtain ⟨⟨mid, m⟩, hmid, hb⟩ := hb
      split at hb
      · cases hb
      · simp only [Option.bind_eq_some_iff, Option.some.injEq] at hb
        obtain ⟨⟨mid₁, yes⟩, hyes, ⟨mid₂, no⟩, hno, hnew⟩ := hb
        obtain ⟨⟨new, rfl⟩, hrest⟩ := hn hmid
        obtain ⟨⟨new₁, rfl⟩, hyes⟩ := ht hyes
        obtain ⟨⟨new₂, rfl⟩, hno⟩ := he hno
        cases hnew
        refine ⟨⟨new ++ (new₁ ++ (new₂ ++ [branching c.head (some yes) no])), by simp only [List.append_assoc]⟩,
          fun blocks hk => ⟨m, yes, no, ?_, ?_, ?_, ?_⟩⟩
        · exact hrest blocks ((hk.earlier (Nat.le_refl _)).earlier (Nat.le_refl _) |>.earlier (Nat.le_refl _))
        · exact hyes blocks ((hk.earlier (Nat.le_refl _)).earlier (by simp))
        · exact hno blocks (hk.earlier (by simp))
        · exact hk.last (by simp)

/-- Every entry stands where its body was built. -/
theorem buildEntries_built (bodies : List Hir) : ∀ {before after : List VntCfgBlock} {entries : List Nat},
    buildEntries bodies before = some (after, entries) →
      (∃ new, after = before ++ new) ∧ entries.length = bodies.length ∧
      ∀ (blocks : List VntCfgBlock), KeepsFrom before.length after blocks →
        ∀ (k : Nat) (body : Hir) (e : Nat), bodies[k]? = some body → entries[k]? = some e →
          Built blocks body e 0 none none := by
  induction bodies with
  | nil =>
      intro before after entries hb
      cases hb
      exact ⟨⟨[], (List.append_nil _).symm⟩, rfl, fun _ _ k body e hk => by simp at hk⟩
  | cons body bodies ih =>
      intro before after entries hb
      simp only [buildEntries, bind, Option.bind_eq_some_iff, Option.some.injEq, Prod.mk.injEq] at hb
      obtain ⟨⟨mid, entry⟩, hbody, ⟨last, entries'⟩, hrest, rfl, rfl⟩ := hb
      obtain ⟨⟨new, rfl⟩, hbuilt⟩ := buildSequence_built body hbody
      obtain ⟨⟨new', rfl⟩, hlen, hrest⟩ := ih hrest
      refine ⟨⟨new ++ new', List.append_assoc ..⟩, by simp [hlen], fun blocks hk k body' e hbk hek => ?_⟩
      cases k with
      | zero =>
          cases hbk
          cases hek
          exact hbuilt blocks (hk.earlier (Nat.le_refl _))
      | succ k => exact hrest blocks (hk.later (by simp)) k body' e hbk hek

/-! ## Renamed graphs -/

/-- `blocks'` is `blocks` under new positions, as far as the blocks in `R` are concerned. -/
structure Renaming (blocks blocks' : List VntCfgBlock) (rename : Nat → Nat) (R : Nat → Prop) : Prop where
  closed : ∀ {b block es t}, R b → blocks[b]? = some block → block.Steps es t → R t
  forward : ∀ {b block es t}, R b → blocks[b]? = some block → block.Steps es t →
    ∃ block', blocks'[rename b]? = some block' ∧ block'.Steps es (rename t)
  backward : ∀ {b block' es t'}, R b → blocks'[rename b]? = some block' → block'.Steps es t' →
    ∃ block t, blocks[b]? = some block ∧ block.Steps es t ∧ t' = rename t

section Renaming

variable {blocks blocks' : List VntCfgBlock} {rename : Nat → Nat} {R : Nat → Prop}

theorem Renaming.path (h : Renaming blocks blocks' rename R) {k b b' : Nat} {es : List CfgEvent}
    (hp : Path blocks k b es b') (hb : R b) : Path blocks' k (rename b) es (rename b') ∧ R b' := by
  induction hp with
  | refl b => exact ⟨.refl _, hb⟩
  | step at_ edge _ ih =>
      obtain ⟨block', hat', hedge⟩ := h.forward hb at_ edge
      obtain ⟨hp, hr⟩ := ih (h.closed hb at_ edge)
      exact ⟨.step hat' hedge hp, hr⟩

theorem Renaming.path_back (h : Renaming blocks blocks' rename R) {k c c' : Nat} {es : List CfgEvent}
    (hp : Path blocks' k c es c') : ∀ {b : Nat}, R b → c = rename b →
      ∃ b', Path blocks k b es b' ∧ R b' ∧ c' = rename b' := by
  induction hp with
  | refl c => intro b hb hc; exact ⟨b, .refl b, hb, hc⟩
  | step at_ edge _ ih =>
      rintro b hb rfl
      obtain ⟨block, t, hat, hedge, rfl⟩ := h.backward hb at_ edge
      obtain ⟨b', hp, hr, hc⟩ := ih (h.closed hb hat hedge) rfl
      exact ⟨b', .step hat hedge hp, hr, hc⟩

end Renaming

/-! ## Folding constant branches -/

theorem steps_simplifyBlock (block : VntCfgBlock) (es : List CfgEvent) (t : Nat) :
    (simplifyBlock block).Steps es t ↔ block.Steps es t := by
  unfold simplifyBlock
  split
  · rename_i literal hterm hliteral
    obtain ⟨c, hc, hl⟩ := Option.bind_eq_some_iff.mp hliteral
    simp only [VntCfgBlock.Steps, hterm, hc, Option.some.injEq, Tests, Option.toList, List.map_nil]
    constructor
    · rintro ⟨ht, rfl⟩
      exact ⟨c, literal, rfl, by rw [hl]; exact ⟨rfl, rfl⟩, ht⟩
    · rintro ⟨_, outcome, rfl, hes, ht⟩
      rw [hl] at hes
      obtain ⟨rfl, rfl⟩ := hes
      exact ⟨ht, rfl⟩
  · rfl

theorem renaming_simplify (cfg : VntCfg) :
    Renaming cfg.blocks (simplifyConstantBranches cfg).blocks id fun _ => True where
  closed := fun _ _ _ => trivial
  forward := by
    intro b block es t _ hat hedge
    refine ⟨simplifyBlock block, ?_, (steps_simplifyBlock block es t).mpr hedge⟩
    simp [simplifyConstantBranches, hat]
  backward := by
    intro b block' es t' _ hat hedge
    simp only [simplifyConstantBranches, id, List.getElem?_map, Option.map_eq_some_iff] at hat
    obtain ⟨block, hat, rfl⟩ := hat
    exact ⟨block, t', hat, (steps_simplifyBlock block es t').mp hedge, rfl⟩

/-! ## Pruning -/

theorem getElem?_filterMap {α β : Type} {f : α → Option β} {l : List α} (hf : ∀ x ∈ l, (f x).isSome)
    (k : Nat) : (l.filterMap f)[k]? = l[k]?.bind f := by
  induction l generalizing k with
  | nil => simp
  | cons x l ih =>
      obtain ⟨y, hy⟩ := Option.isSome_iff_exists.mp (hf x List.mem_cons_self)
      rw [List.filterMap_cons_some hy]
      cases k with
      | zero => simp [hy]
      | succ k => simpa using ih (fun z hz => hf z (List.mem_cons_of_mem x hz)) k

theorem steps_rename (map : Nat → Nat) (block : VntCfgBlock) (es : List CfgEvent) (t' : Nat) :
    (block.rename map).Steps es t' ↔ ∃ t, block.Steps es t ∧ t' = map t := by
  unfold VntCfgBlock.Steps VntCfgBlock.rename
  cases block.terminator with
  | branch =>
      constructor
      · rintro ⟨c, outcome, hc, ht, hs⟩
        cases outcome <;>
        · obtain ⟨t, hs', rfl⟩ := Option.map_eq_some_iff.mp hs
          exact ⟨t, ⟨c, _, hc, ht, hs'⟩, rfl⟩
      · rintro ⟨t, ⟨c, outcome, hc, ht, hs⟩, rfl⟩
        refine ⟨c, outcome, hc, ht, ?_⟩
        cases outcome <;> exact Option.map_eq_some_iff.mpr ⟨t, hs, rfl⟩
  | exit => simp
  | _ =>
      simp only [Option.map_eq_some_iff]
      constructor
      · rintro ⟨⟨t, hs, rfl⟩, hes⟩
        exact ⟨t, ⟨hs, hes⟩, rfl⟩
      · rintro ⟨t, ⟨hs, hes⟩, rfl⟩
        exact ⟨⟨t, hs, rfl⟩, hes⟩

/-- An edge leads to a successor. -/
theorem VntCfgBlock.Steps.mem_successors {block : VntCfgBlock} {es : List CfgEvent} {t : Nat}
    (h : block.Steps es t) : t ∈ block.successors := by
  unfold VntCfgBlock.Steps at h
  unfold VntCfgBlock.successors
  rw [List.mem_append, Option.mem_toList, Option.mem_toList]
  cases hterm : block.terminator with
  | branch =>
      rw [hterm] at h
      obtain ⟨c, outcome, -, -, hs⟩ := h
      cases outcome
      · exact .inr hs
      · exact .inl hs
  | exit => rw [hterm] at h; exact h.elim
  | _ => rw [hterm] at h; exact .inl h.1

theorem VntCfg.successors_eq_some {cfg : VntCfg} {b : Nat} {l : List Nat} :
    cfg.successors b = some l ↔ ∃ block, cfg.blocks[b]? = some block ∧ l = block.successors ∧
      ∀ t ∈ block.successors, t < cfg.blocks.length := by
  simp only [VntCfg.successors, bind, Option.bind_eq_some_iff, Option.ite_none_right_eq_some,
    Option.some.injEq, List.all_eq_true, decide_eq_true_eq]
  constructor
  · rintro ⟨block, hat, hall, rfl⟩
    exact ⟨block, hat, rfl, hall⟩
  · rintro ⟨block, hat, rfl, hall⟩
    exact ⟨block, hat, hall, rfl⟩

/-- What the marking loop finds. -/
theorem VntCfg.reachable_spec {cfg : VntCfg} {marked : List Nat} (h : cfg.reachable = some marked) :
    (∀ b ∈ marked, b < cfg.blocks.length) ∧ (∀ e ∈ cfg.entries, e ∈ marked) ∧
    (∀ b ∈ marked, ∃ block, cfg.blocks[b]? = some block ∧ ∀ t ∈ block.successors, t ∈ marked) ∧
    ∀ b ∈ marked, ∃ e ∈ cfg.entries, Relation.ReflTransGen (Edge cfg.successors) e b := by
  unfold VntCfg.reachable at h
  split at h
  · rename_i hentries
    simp only [List.all_eq_true, decide_eq_true_eq] at hentries
    have hbound : ∀ x l, cfg.successors x = some l → l ⊆ List.range cfg.blocks.length := by
      intro x l hx t ht
      obtain ⟨block, -, rfl, hall⟩ := successors_eq_some.mp hx
      exact List.mem_range.mpr (hall t ht)
    rw [← List.length_range (n := cfg.blocks.length)] at h
    obtain ⟨-, hsub, hclosed, hmem⟩ :=
      (explore_spec hbound fun e he => List.mem_range.mpr (hentries e he)).1 marked h
    refine ⟨fun b hb => List.mem_range.mp (hsub hb), fun e he => (hmem e).mpr ⟨e, he, .refl⟩, ?_,
      fun b hb => (hmem b).mp hb⟩
    intro b hb
    obtain ⟨l, hl, hall⟩ := hclosed b hb
    obtain ⟨block, hat, rfl, -⟩ := successors_eq_some.mp hl
    exact ⟨block, hat, hall⟩
  · cases h

/-- A pruned graph, taken apart. -/
theorem pruneUnreachableBlocks_ok {cfg cfg' : VntCfg} (h : pruneUnreachableBlocks cfg = some cfg') :
    ∃ marked kept, cfg.reachable = some marked ∧ (∀ b, b ∈ kept ↔ b ∈ marked) ∧ cfg.exitBlock ∈ kept ∧
      cfg'.entries = cfg.entries.map (renumber kept) ∧ cfg'.exitBlock = renumber kept cfg.exitBlock ∧
      (∀ b ∈ kept, ∀ c ∈ kept, renumber kept b = renumber kept c → b = c) ∧
      (∀ c < cfg'.blocks.length, ∃ b ∈ kept, c = renumber kept b) ∧
      ∀ b ∈ kept, cfg'.blocks[renumber kept b]? = cfg.blocks[b]?.map (VntCfgBlock.rename (renumber kept)) := by
  simp only [pruneUnreachableBlocks, bind, Option.bind_eq_some_iff, Option.ite_none_right_eq_some,
    Option.some.injEq] at h
  obtain ⟨marked, hm, hexit, rfl⟩ := h
  generalize hkept : (List.range cfg.blocks.length).filter (· ∈ marked) = kept at hexit ⊢
  have hmem : ∀ b, b ∈ kept ↔ b ∈ marked := by
    intro b
    rw [← hkept]
    simp only [List.mem_filter, List.mem_range, decide_eq_true_eq, and_iff_right_iff_imp]
    exact (VntCfg.reachable_spec hm).1 b
  have hnodup : kept.Nodup := hkept ▸ List.nodup_range.filter _
  have hsome : ∀ b ∈ kept, (cfg.blocks[b]?.map (VntCfgBlock.rename (renumber kept))).isSome := by
    intro b hb
    simp [(VntCfg.reachable_spec hm).1 b ((hmem b).mp hb)]
  have hat : ∀ b ∈ kept, kept[renumber kept b]? = some b := fun b hb => List.getElem?_idxOf hb
  refine ⟨marked, kept, hm, hmem, hexit, rfl, rfl, ?_, ?_, ?_⟩
  · intro b hb c hc heq
    have hbc := hat b hb
    rw [heq, hat c hc] at hbc
    exact (Option.some.inj hbc).symm
  · intro c hc
    have hlen : c < kept.length := Nat.lt_of_lt_of_le hc (List.length_filterMap_le _ _)
    exact ⟨kept[c], List.getElem_mem hlen, (hnodup.idxOf_getElem c hlen).symm⟩
  · intro b hb
    rw [getElem?_filterMap hsome, hat b hb]
    rfl

theorem renaming_prune {cfg cfg' : VntCfg} {marked kept : List Nat} (hm : cfg.reachable = some marked)
    (hmem : ∀ b, b ∈ kept ↔ b ∈ marked)
    (hat : ∀ b ∈ kept, cfg'.blocks[renumber kept b]? = cfg.blocks[b]?.map (VntCfgBlock.rename (renumber kept))) :
    Renaming cfg.blocks cfg'.blocks (renumber kept) (· ∈ kept) where
  closed := by
    intro b block es t hb hblock hedge
    obtain ⟨block', hblock', hall⟩ := (VntCfg.reachable_spec hm).2.2.1 b ((hmem b).mp hb)
    rw [hblock] at hblock'
    cases hblock'
    exact (hmem t).mpr (hall t hedge.mem_successors)
  forward := by
    intro b block es t hb hblock hedge
    refine ⟨_, by rw [hat b hb, hblock]; rfl, (steps_rename _ block es _).mpr ⟨t, hedge, rfl⟩⟩
  backward := by
    intro b block' es t' hb hblock' hedge
    rw [hat b hb, Option.map_eq_some_iff] at hblock'
    obtain ⟨block, hblock, rfl⟩ := hblock'
    obtain ⟨t, hedge', rfl⟩ := (steps_rename _ block es t').mp hedge
    exact ⟨block, t, hblock, hedge', rfl⟩

/-! ## The simulation -/

/-- Every `break` and `continue` of the sequence is inside a loop of the same function (`inLoop`: the sequence
    itself is). -/
@[simp] def exitsInLoops (inLoop : Bool) : Hir → Bool
  | .nil => true
  | .leaf _ op n => (inLoop || (op != .breakNode && op != .continueNode)) && exitsInLoops inLoop n
  | .one _ (.function _ _) a n => exitsInLoops false a && exitsInLoops inLoop n
  | .one _ _ a n => exitsInLoops inLoop a && exitsInLoops inLoop n
  | .two _ .whileNode c b n => exitsInLoops inLoop c && exitsInLoops true b && exitsInLoops inLoop n
  | .two _ _ a b n => exitsInLoops inLoop a && exitsInLoops inLoop b && exitsInLoops inLoop n
  | .ifNode _ c t e n =>
      exitsInLoops inLoop c && exitsInLoops inLoop t && exitsInLoops inLoop e && exitsInLoops inLoop n

/-- With all targets present, building succeeds. -/
theorem buildSequence_isSome (h : Hir) : ∀ {inLoop : Bool} {break_ continue_ : Option Nat},
    exitsInLoops inLoop h = true → validateNodeShape h = true →
      (inLoop = true → break_.isSome ∧ continue_.isSome) →
      ∀ next before, ∃ r, buildSequence h next break_ continue_ before = some r := by
  induction h with
  | nil => intro _ _ _ _ _ _ _ _; exact ⟨_, rfl⟩
  | leaf i op n hn =>
      intro inLoop break_ continue_ hx hv ht next before
      simp only [exitsInLoops, Bool.and_eq_true] at hx
      obtain ⟨⟨mid, m⟩, hmid⟩ := hn hx.2 hv ht next before
      simp only [buildSequence, bind, hmid, Option.bind_some]
      cases op with
      | breakNode =>
          have hin : inLoop = true := by simpa using hx.1
          obtain ⟨t, rfl⟩ := Option.isSome_iff_exists.mp (ht hin).1
          exact ⟨_, rfl⟩
      | continueNode =>
          have hin : inLoop = true := by simpa using hx.1
          obtain ⟨t, rfl⟩ := Option.isSome_iff_exists.mp (ht hin).2
          exact ⟨_, rfl⟩
      | _ => exact ⟨_, rfl⟩
  | one i op a n ha hn =>
      intro inLoop break_ continue_ hx hv ht next before
      simp only [validateNodeShape, Bool.and_eq_true] at hv
      have hxn : exitsInLoops inLoop n = true := by
        cases op <;> simp only [exitsInLoops, Bool.and_eq_true] at hx <;> exact hx.2
      obtain ⟨⟨mid, m⟩, hmid⟩ := hn hxn hv.2 ht next before
      simp only [buildSequence, bind, hmid, Option.bind_some]
      cases op with
      | program =>
          simp only [exitsInLoops, Bool.and_eq_true] at hx
          exact ha hx.1 hv.1.2 ht m mid
      | _ => exact ⟨_, rfl⟩
  | two i op a b n _ hb hn =>
      intro inLoop break_ continue_ hx hv ht next before
      simp only [validateNodeShape, Bool.and_eq_true] at hv
      have hxn : exitsInLoops inLoop n = true := by
        cases op <;> simp only [exitsInLoops, Bool.and_eq_true] at hx <;> exact hx.2
      obtain ⟨⟨mid, m⟩, hmid⟩ := hn hxn hv.2 ht next before
      simp only [buildSequence, bind, hmid, Option.bind_some]
      cases op with
      | whileNode =>
          simp only [exitsInLoops, Bool.and_eq_true] at hx
          have hne : a ≠ .nil := by
            rintro rfl
            simp at hv
          obtain ⟨⟨mid', entry⟩, hloop⟩ :=
            @hb true (some m) (some mid.length) hx.1.2 hv.1.2 (fun _ => ⟨rfl, rfl⟩) mid.length
              (mid ++ [branching a.head none m])
          simp only [if_neg hne, newBlock, hloop]
          exact ⟨_, rfl⟩
      | _ => exact ⟨_, rfl⟩
  | ifNode i c t e n _ ht he hn =>
      intro inLoop break_ continue_ hx hv htar next before
      simp only [validateNodeShape, Bool.and_eq_true] at hv
      simp only [exitsInLoops, Bool.and_eq_true] at hx
      obtain ⟨⟨mid, m⟩, hmid⟩ := hn hx.2 hv.2 htar next before
      have hne : c ≠ .nil := by
        rintro rfl
        simp at hv
      obtain ⟨⟨mid₁, yes⟩, hyes⟩ := ht hx.1.1.2 hv.1.1.2 htar m mid
      obtain ⟨⟨mid₂, no⟩, hno⟩ := he hx.1.2 hv.1.2 htar m mid₁
      simp only [buildSequence, bind, hmid, Option.bind_some, if_neg hne, hyes, hno]
      exact ⟨_, rfl⟩

/-- The body of a function anywhere in the tree obeys the same rules. -/
theorem functionNodes_ok (h : Hir) : ∀ {inLoop : Bool}, exitsInLoops inLoop h = true →
    validateNodeShape h = true → ∀ f ∈ h.functionNodes,
      exitsInLoops false f.body = true ∧ validateNodeShape f.body = true := by
  induction h with
  | nil => intro _ _ _ f hf; cases hf
  | leaf i op n hn =>
      intro inLoop hx hv f hf
      simp only [exitsInLoops, Bool.and_eq_true] at hx
      exact hn hx.2 hv f hf
  | one i op a n ha hn =>
      intro inLoop hx hv f hf
      simp only [validateNodeShape, Bool.and_eq_true] at hv
      cases op with
      | function name names =>
          simp only [exitsInLoops, Bool.and_eq_true] at hx
          rcases List.mem_cons.mp hf with rfl | hf
          · exact ⟨hx.1, hv.1.2⟩
          · rcases List.mem_append.mp hf with hf | hf
            · exact ha hx.1 hv.1.2 f hf
            · exact hn hx.2 hv.2 f hf
      | _ =>
          simp only [exitsInLoops, Bool.and_eq_true] at hx
          rcases List.mem_append.mp hf with hf | hf
          · exact ha hx.1 hv.1.2 f hf
          · exact hn hx.2 hv.2 f hf
  | two i op a b n ha hb hn =>
      intro inLoop hx hv f hf
      simp only [validateNodeShape, Bool.and_eq_true] at hv
      simp only [Hir.functionNodes, List.mem_append] at hf
      cases op <;>
      · simp only [exitsInLoops, Bool.and_eq_true] at hx
        rcases hf with hf | hf | hf
        · exact ha hx.1.1 hv.1.1.2 f hf
        · exact hb hx.1.2 hv.1.2 f hf
        · exact hn hx.2 hv.2 f hf
  | ifNode i c t e n hc ht he hn =>
      intro inLoop hx hv f hf
      simp only [validateNodeShape, Bool.and_eq_true] at hv
      simp only [exitsInLoops, Bool.and_eq_true] at hx
      simp only [Hir.functionNodes, List.mem_append] at hf
      rcases hf with hf | hf | hf | hf
      · exact hc hx.1.1.1 hv.1.1.1.2 f hf
      · exact ht hx.1.1.2 hv.1.1.2 f hf
      · exact he hx.1.2 hv.1.2 f hf
      · exact hn hx.2 hv.2 f hf

theorem Hir.mem_arenaFunctions {h : Hir} {f : FunctionNode} : f ∈ h.arenaFunctions ↔ f ∈ h.functionNodes :=
  List.mem_insertionSort _

/-- The same of everything that has an entry. -/
theorem bodies_ok {ir : Hir} (hv : vntIrValidate ir = true) (hx : exitsInLoops false ir = true) :
    ∀ body ∈ ir.bodies, exitsInLoops false body = true ∧ validateNodeShape body = true := by
  unfold vntIrValidate at hv
  split at hv
  · rename_i i a
    simp only [exitsInLoops, Bool.and_true] at hx
    intro body hb
    rcases List.mem_cons.mp hb with rfl | hb
    · exact ⟨hx, hv⟩
    · obtain ⟨f, hf, rfl⟩ := List.mem_map.mp hb
      rw [Hir.mem_arenaFunctions] at hf
      have hf' : f ∈ a.functionNodes := by simpa using hf
      exact functionNodes_ok a hx hv f hf'
  · cases hv

theorem buildEntries_isSome (bodies : List Hir) : (∀ body ∈ bodies, exitsInLoops false body = true ∧
    validateNodeShape body = true) → ∀ before, ∃ r, buildEntries bodies before = some r := by
  induction bodies with
  | nil => intro _ before; exact ⟨_, rfl⟩
  | cons body bodies ih =>
      intro h before
      obtain ⟨hx, hv⟩ := h body List.mem_cons_self
      obtain ⟨r, hr⟩ := @buildSequence_isSome body false none none hx hv (by simp) 0 before
      obtain ⟨r', hr'⟩ := ih (fun b hb => h b (List.mem_cons_of_mem _ hb)) r.1
      simp only [buildEntries, bind, hr, hr', Option.bind_some]
      exact ⟨_, rfl⟩

/-- The event sequences of `cfg` are those of the structured program, entry by entry; the ones that end in the
    exit block are those of the runs that finish. -/
def Simulates (cfg : VntCfg) (ir : Hir) : Prop :=
  cfg.entries.length = ir.bodies.length ∧
    ∀ (j e : Nat) (body : Hir), ir.bodies[j]? = some body → cfg.entries[j]? = some e → ∀ es,
      ((∃ k b, Path cfg.blocks k e es b) ↔ ∃ o, Runs body es o) ∧
      ((∃ k, Path cfg.blocks k e es cfg.exitBlock) ↔ ∃ o, Runs body es o ∧ o.finishes = true)

/-- Nothing leads out of the exit block. -/
theorem path_exit {blocks : List VntCfgBlock} (h0 : blocks[0]? = some exitNode) {k b : Nat}
    {es : List CfgEvent} (hp : Path blocks k 0 es b) : es = [] ∧ b = 0 := by
  rcases hp.uncons h0 with ⟨-, rfl, rfl⟩ | ⟨_, _, _, _, -, -, edge, -⟩
  · exact ⟨rfl, rfl⟩
  · exact edge.elim

/-- One body: its runs are the paths from where it was built. -/
theorem built_simulates {blocks : List VntCfgBlock} {body : Hir} {e : Nat}
    (h0 : blocks[0]? = some exitNode) (hb : Built blocks body e 0 none none) (es : List CfgEvent) :
    ((∃ k b, Path blocks k e es b) ↔ ∃ o, Runs body es o) ∧
    ((∃ k, Path blocks k e es 0) ↔ ∃ o, Runs body es o ∧ o.finishes = true) := by
  -- Without targets for `break` and `continue`, what is not cut off has finished.
  have finished : ∀ {o : Outcome} {t : Nat}, o ≠ .cut → o.target 0 none none t → o.finishes = true ∧ t = 0 := by
    intro o t ho ht
    cases o <;> first | exact absurd rfl ho | exact ⟨rfl, ht⟩ | cases ht
  refine ⟨⟨?_, ?_⟩, ?_, ?_⟩
  · rintro ⟨k, b, hp⟩
    rcases Path.decompose k body hb hp with ⟨hr, -⟩ | ⟨k', es₁, es₂, o, t, -, rfl, hr, ho, ht, hp'⟩
    · exact ⟨_, hr⟩
    · obtain ⟨-, rfl⟩ := finished ho ht
      obtain ⟨rfl, -⟩ := path_exit h0 hp'
      exact ⟨o, by rwa [List.append_nil]⟩
  · rintro ⟨o, hr⟩
    obtain ⟨k, b, hp, -⟩ := hr.path hb
    exact ⟨k, b, hp⟩
  · rintro ⟨k, hp⟩
    rcases Path.decompose k body hb hp with
      ⟨-, block, hat, hne⟩ | ⟨k', es₁, es₂, o, t, -, rfl, hr, ho, ht, hp'⟩
    · rw [h0] at hat
      cases hat
      exact absurd rfl hne
    · obtain ⟨hf, rfl⟩ := finished ho ht
      obtain ⟨rfl, -⟩ := path_exit h0 hp'
      exact ⟨o, by rwa [List.append_nil], hf⟩
  · rintro ⟨o, hr, hf⟩
    obtain ⟨k, b, hp, ht⟩ := hr.path hb
    have hc : o ≠ .cut := by rintro rfl; cases hf
    obtain ⟨-, rfl⟩ := finished hc ht
    exact ⟨k, hp⟩

/-- A renamed graph simulates what the graph does. -/
theorem Simulates.rename {cfg cfg' : VntCfg} {ir : Hir} {rename : Nat → Nat} {R : Nat → Prop}
    (h : Simulates cfg ir) (hr : Renaming cfg.blocks cfg'.blocks rename R) (hentries : ∀ e ∈ cfg.entries, R e)
    (hinj : ∀ b, R b → rename b = rename cfg.exitBlock → b = cfg.exitBlock)
    (hentries' : cfg'.entries = cfg.entries.map rename) (hexit' : cfg'.exitBlock = rename cfg.exitBlock) :
    Simulates cfg' ir := by
  refine ⟨by rw [hentries', List.length_map]; exact h.1, fun j e' body hbody he' es => ?_⟩
  rw [hentries', List.getElem?_map, Option.map_eq_some_iff] at he'
  obtain ⟨e, he, rfl⟩ := he'
  have hR : R e := hentries e (List.mem_of_getElem? he)
  obtain ⟨hany, hend⟩ := h.2 j e body hbody he es
  refine ⟨⟨?_, ?_⟩, ?_, ?_⟩
  · rintro ⟨k, b', hp⟩
    obtain ⟨b, hp', -, -⟩ := hr.path_back hp hR rfl
    exact hany.mp ⟨k, b, hp'⟩
  · intro hruns
    obtain ⟨k, b, hp⟩ := hany.mpr hruns
    exact ⟨k, _, (hr.path hp hR).1⟩
  · rintro ⟨k, hp⟩
    rw [hexit'] at hp
    obtain ⟨b, hp', hRb, hb⟩ := hr.path_back hp hR rfl
    rw [hinj b hRb hb.symm] at hp'
    exact hend.mp ⟨k, hp'⟩
  · intro hruns
    obtain ⟨k, hp⟩ := hend.mpr hruns
    rw [hexit']
    exact ⟨k, (hr.path hp hR).1⟩

theorem simulates_buildBlocks {ir : Hir} {cfg : VntCfg} (h : buildBlocks ir = some cfg) : Simulates cfg ir := by
  simp only [buildBlocks, bind, Option.bind_eq_some_iff, Option.some.injEq] at h
  obtain ⟨⟨blocks, entries⟩, hb, rfl⟩ := h
  obtain ⟨⟨new, rfl⟩, hlen, hbuilt⟩ := buildEntries_built _ hb
  refine ⟨hlen, fun j e body hbody he es => ?_⟩
  exact built_simulates rfl (hbuilt _ (.self _ _) j body e hbody he) es

theorem simulates_simplify {ir : Hir} {cfg : VntCfg} (h : Simulates cfg ir) :
    Simulates (simplifyConstantBranches cfg) ir :=
  h.rename (renaming_simplify cfg) (fun _ _ => trivial) (fun _ _ h => h) (List.map_id _).symm rfl

theorem simulates_prune {ir : Hir} {cfg cfg' : VntCfg} (h : Simulates cfg ir)
    (hp : pruneUnreachableBlocks cfg = some cfg') : Simulates cfg' ir := by
  obtain ⟨marked, kept, hm, hmem, hexit, hentries, hexit', hinj, -, hat⟩ := pruneUnreachableBlocks_ok hp
  refine h.rename (renaming_prune hm hmem hat) ?_ (fun b hb => hinj b hb _ hexit) hentries hexit'
  exact fun e he => (hmem e).mpr ((VntCfg.reachable_spec hm).2.1 e he)

/-- Whatever graph comes out simulates its tree. -/
theorem simulates_of_build {ir : Hir} {built : VntCfg} (h : vntCfgBuild ir = some built) : Simulates built ir := by
  simp only [vntCfgBuild, bind, Option.bind_eq_some_iff, Option.ite_none_right_eq_some] at h
  obtain ⟨-, cfg, hcfg, pruned, hp, -, ⟨⟩⟩ := h
  exact simulates_prune (simulates_simplify (simulates_buildBlocks hcfg)) hp

/-- **The graph simulates the structured program.** For every validated tree whose `break`s and `continue`s
    are inside loops the blocks are built, and at each stage — as built, with constant branches folded, and
    pruned — the event sequences along the paths from an entry are exactly those of the structured body, those
    that end at the exit block being exactly those of the runs that end or return. -/
theorem vntCfg_simulates (ir : Hir) (hv : vntIrValidate ir = true) (hx : exitsInLoops false ir = true) :
    ∃ cfg, buildBlocks ir = some cfg ∧ Simulates cfg ir ∧ Simulates (simplifyConstantBranches cfg) ir ∧
      (∀ pruned, pruneUnreachableBlocks (simplifyConstantBranches cfg) = some pruned → Simulates pruned ir) ∧
      ∀ built, vntCfgBuild ir = some built → Simulates built ir := by
  obtain ⟨⟨blocks, entries⟩, hb⟩ := buildEntries_isSome ir.bodies (bodies_ok hv hx) [exitNode]
  have hcfg : buildBlocks ir = some ⟨blocks, entries, 0⟩ := by simp only [buildBlocks, bind, hb, Option.bind_some]
  have hsim := simulates_buildBlocks hcfg
  exact ⟨_, hcfg, hsim, simulates_simplify hsim, fun _ => simulates_prune (simulates_simplify hsim),
    fun _ => simulates_of_build⟩

/-- `while c { if true { break } print("x") } fun f() { return }` -/
def brokenLoop : Hir :=
  .one 0 .program
    (.two 1 .whileNode (.leaf 2 (.variable "c") .nil)
      (.ifNode 3 (.leaf 4 (.boolean true) .nil) (.leaf 5 .breakNode .nil) .nil
        (.one 6 .print (.leaf 7 (.string "x") .nil) .nil))
      (.one 8 (.function "f" []) (.one 9 .returnNode .nil .nil) .nil))
    .nil

theorem brokenLoop_simulates : vntIrValidate brokenLoop = true ∧ exitsInLoops false brokenLoop = true ∧
    ∃ cfg, buildBlocks brokenLoop = some cfg ∧ Simulates cfg brokenLoop ∧
      Simulates (simplifyConstantBranches cfg) brokenLoop ∧
      (∀ pruned, pruneUnreachableBlocks (simplifyConstantBranches cfg) = some pruned →
        Simulates pruned brokenLoop) ∧
      ∀ built, vntCfgBuild brokenLoop = some built → Simulates built brokenLoop :=
  ⟨by decide, by decide, vntCfg_simulates brokenLoop (by decide) (by decide)⟩

end Vnt
