import Vnt.Cfg.Finish

/-!
# `Cfg.Regions` — bodies do not share blocks

The blocks of a body are appended in one go, and their edges stay among them or lead to the exit. So each
block has an owner, no path leads from one body into another, and an entry block is met again only from itself.
-/

namespace Vnt

open Lib

/-- Where the edges of a built sequence may lead: to one of its targets, to the exit, or to its own blocks. -/
def Leads (next : Nat) (break_ continue_ : Option Nat) (from_ t : Nat) : Prop :=
  t = next ∨ break_ = some t ∨ continue_ = some t ∨ t = 0 ∨ from_ ≤ t

/-- They do. -/
def LeadsFrom (next : Nat) (break_ continue_ : Option Nat) (from_ : Nat) (blocks : List VntCfgBlock) : Prop :=
  AllFrom from_ (fun _ block => ∀ t ∈ block.successors, Leads next break_ continue_ from_ t) blocks

theorem leads_straight {next : Nat} {break_ continue_ : Option Nat} {from_ target : Nat} {node : Hir}
    {term : VntCfgTerminator} (ht : Leads next break_ continue_ from_ target) :
    ∀ t ∈ (straight node target term).successors, Leads next break_ continue_ from_ t := by
  intro t hmem
  have : t = target := by simpa [straight, VntCfgBlock.successors] using hmem
  rw [this]
  exact ht

theorem leads_branching {next : Nat} {break_ continue_ : Option Nat} {from_ yes no : Nat} {c : Hir}
    (hy : Leads next break_ continue_ from_ yes) (hn : Leads next break_ continue_ from_ no) :
    ∀ t ∈ (branching c (some yes) no).successors, Leads next break_ continue_ from_ t := by
  intro t hmem
  have : t = yes ∨ t = no := by simpa [branching, VntCfgBlock.successors] using hmem
  rcases this with rfl | rfl
  · exact hy
  · exact hn

theorem buildSequence_leads (h : Hir) : ∀ {next e : Nat} {break_ continue_ : Option Nat}
    {before after : List VntCfgBlock}, buildSequence h next break_ continue_ before = some (after, e) →
      (e = next ∨ before.length ≤ e) ∧ LeadsFrom next break_ continue_ before.length after := by
  -- The entry of a rest, and a new block behind it, as targets.
  have rest : ∀ {next m from_ : Nat} {break_ continue_ : Option Nat}, (m = next ∨ from_ ≤ m) →
      Leads next break_ continue_ from_ m := fun hm => hm.elim .inl fun hm => .inr (.inr (.inr (.inr hm)))
  have own : ∀ {next m from_ : Nat} {break_ continue_ : Option Nat}, from_ ≤ m →
      Leads next break_ continue_ from_ m := fun hm => .inr (.inr (.inr (.inr hm)))
  -- A sequence in front of the rest `m`: its targets are targets of the whole.
  have inner : ∀ {next m from_ from' : Nat} {break_ continue_ : Option Nat} {blocks : List VntCfgBlock},
      (m = next ∨ from_ ≤ m) → from_ ≤ from' → LeadsFrom m break_ continue_ from' blocks →
      AllFrom from' (fun _ block => ∀ t ∈ block.successors, Leads next break_ continue_ from_ t) blocks := by
    intro next m from_ from' break_ continue_ blocks hm hf hl
    refine AllFrom.mono hl fun i block hb t ht => ?_
    rcases hb t ht with rfl | h | h | h | h
    · exact rest hm
    · exact .inr (.inl h)
    · exact .inr (.inr (.inl h))
    · exact .inr (.inr (.inr (.inl h)))
    · exact own (by omega)
  induction h with
  | nil =>
      intro next e _ _ before after hb
      cases hb
      exact ⟨.inl rfl, .empty (Nat.le_refl _)⟩
  | leaf i op n hn =>
      intro next e break_ continue_ before after hb
      simp only [buildSequence, bind, Option.bind_eq_some_iff] at hb
      obtain ⟨⟨mid, m⟩, hmid, hb⟩ := hb
      obtain ⟨hm, hl⟩ := hn hmid
      have hlen := buildSequence_length hmid
      cases op with
      | breakNode =>
          obtain ⟨t, ht, hb⟩ := Option.bind_eq_some_iff.mp hb
          cases hb
          exact ⟨.inr hlen, AllFrom.append hl (leads_straight (.inr (.inl ht)))⟩
      | continueNode =>
          obtain ⟨t, ht, hb⟩ := Option.bind_eq_some_iff.mp hb
          cases hb
          exact ⟨.inr hlen, AllFrom.append hl (leads_straight (.inr (.inr (.inl ht))))⟩
      | struct name names =>
          cases hb
          exact ⟨hm, hl⟩
      | _ =>
          cases hb
          exact ⟨.inr hlen, AllFrom.append hl (leads_straight (rest hm))⟩
  | one i op a n ha hn =>
      intro next e break_ continue_ before after hb
      simp only [buildSequence, bind, Option.bind_eq_some_iff] at hb
      obtain ⟨⟨mid, m⟩, hmid, hb⟩ := hb
      obtain ⟨hm, hl⟩ := hn hmid
      have hlen := buildSequence_length hmid
      cases op with
      | program =>
          obtain ⟨he, hl'⟩ := ha hb
          obtain ⟨new, rfl⟩ := (buildSequence_built a hb).1
          refine ⟨?_, AllFrom.extend hl (inner hm hlen hl')⟩
          rcases he with rfl | he
          · exact hm
          · exact .inr (Nat.le_trans hlen he)
      | returnNode =>
          cases hb
          exact ⟨.inr hlen, AllFrom.append hl (leads_straight (.inr (.inr (.inr (.inl rfl)))))⟩
      | function name names =>
          cases hb
          exact ⟨hm, hl⟩
      | _ =>
          cases hb
          exact ⟨.inr hlen, AllFrom.append hl (leads_straight (rest hm))⟩
  | two i op a b n _ hbody hn =>
      intro next e break_ continue_ before after hb
      simp only [buildSequence, bind, Option.bind_eq_some_iff] at hb
      obtain ⟨⟨mid, m⟩, hmid, hb⟩ := hb
      obtain ⟨hm, hl⟩ := hn hmid
      have hlen := buildSequence_length hmid
      cases op with
      | whileNode =>
          simp only at hb
          split at hb
          · cases hb
          · simp only [newBlock, Option.bind_eq_some_iff, Option.some.injEq, Prod.mk.injEq] at hb
            obtain ⟨⟨mid', entry⟩, hloop, rfl, rfl⟩ := hb
            obtain ⟨he, hl'⟩ := hbody hloop
            obtain ⟨new, rfl⟩ := (buildSequence_built b hloop).1
            have hentry : before.length ≤ entry := by
              rcases he with rfl | he
              · exact hlen
              · simp only [List.length_append] at he
                omega
            refine ⟨.inr hlen, AllFrom.loop hl (leads_branching (own hentry) (rest hm)) ?_⟩
            -- The body's own targets are the test and what follows the loop.
            refine AllFrom.mono hl' fun i block hb t ht => ?_
            rcases hb t ht with rfl | h | h | h | h
            · exact own hlen
            · cases h
              exact rest hm
            · cases h
              exact own hlen
            · exact .inr (.inr (.inr (.inl h)))
            · simp only [List.length_append] at h
              exact own (by omega)
      | _ =>
          cases hb
          exact ⟨.inr hlen, AllFrom.append hl (leads_straight (rest hm))⟩
  | ifNode i c t e n _ ht he hn =>
      intro next entry break_ continue_ before after hb
      simp only [buildSequence, bind, Option.bind_eq_some_iff] at hb
      obtain ⟨⟨mid, m⟩, hmid, hb⟩ := hb
      obtain ⟨hm, hl⟩ := hn hmid
      have hlen := buildSequence_length hmid
      split at hb
      · cases hb
      · simp only [Option.bind_eq_some_iff, Option.some.injEq] at hb
        obtain ⟨⟨mid₁, yes⟩, hyes, ⟨mid₂, no⟩, hno, hnew⟩ := hb
        dsimp only at hno
        have hlen₁ := buildSequence_length hyes
        have hlen₂ := buildSequence_length hno
        obtain ⟨hy, hl₁⟩ := ht hyes
        obtain ⟨hn', hl₂⟩ := he hno
        have arm : ∀ {entry from_ : Nat}, before.length ≤ from_ → (entry = m ∨ from_ ≤ entry) →
            Leads next break_ continue_ before.length entry := by
          rintro entry from_ hf (rfl | h)
          · exact rest hm
          · exact own (by omega)
        obtain ⟨new₁, rfl⟩ := (buildSequence_built t hyes).1
        obtain ⟨new₂, rfl⟩ := (buildSequence_built e hno).1
        cases hnew
        refine ⟨.inr (Nat.le_trans hlen (Nat.le_trans hlen₁ hlen₂)), AllFrom.append (AllFrom.extend (AllFrom.extend hl ?_) ?_) ?_⟩
        · exact inner hm hlen hl₁
        · exact inner hm (by omega) hl₂
        · exact leads_branching (arm hlen hy) (arm (by omega) hn')

/-- Every block belongs to one body: its edges stay in the body or lead to the exit. -/
theorem buildEntries_owner (bodies : List Hir) : ∀ {before after : List VntCfgBlock} {entries : List Nat},
    buildEntries bodies before = some (after, entries) → 0 < before.length →
      ∃ owner : Nat → Nat,
        (∀ (k e : Nat), entries[k]? = some e → e = 0 ∨ (before.length ≤ e ∧ owner e = k)) ∧
        AllFrom before.length (fun j block => ∀ t ∈ block.successors,
          t = 0 ∨ (before.length ≤ t ∧ owner t = owner j)) after := by
  induction bodies with
  | nil =>
      intro before after entries hb _
      cases hb
      exact ⟨fun _ => 0, by simp, .empty (Nat.le_refl _)⟩
  | cons body bodies ih =>
      intro before after entries hb hpos
      simp only [buildEntries, bind, Option.bind_eq_some_iff, Option.some.injEq, Prod.mk.injEq] at hb
      obtain ⟨⟨mid, entry⟩, hbody, ⟨last, entries'⟩, hrest, rfl, rfl⟩ := hb
      dsimp only at hrest
      have hlen := buildSequence_length hbody
      obtain ⟨hentry, hleads⟩ := buildSequence_leads body hbody
      obtain ⟨hlt, hvalid⟩ := buildSequence_valid body hbody hpos (by rintro _ ⟨⟩) (by rintro _ ⟨⟩)
      obtain ⟨owner, hentries, howner⟩ := ih hrest (by omega)
      obtain ⟨new, rfl⟩ := (buildEntries_built bodies hrest).1
      refine ⟨fun j => if j < mid.length then 0 else owner j + 1, ?_, ?_⟩
      · intro k e hk
        cases k with
        | zero =>
            cases hk
            rcases hentry with rfl | h
            · exact .inl rfl
            · exact .inr ⟨h, if_pos hlt⟩
        | succ k =>
            rcases hentries k e hk with rfl | ⟨hle, rfl⟩
            · exact .inl rfl
            · exact .inr ⟨by omega, if_neg (by omega)⟩
      · intro j block hj hat t ht
        by_cases hjm : j < mid.length
        · -- A block of this body.
          rw [List.getElem?_append_left hjm] at hat
          have hin : t < mid.length := by
            have hv := hvalid j block hj hat
            simp only [validateBlock, Bool.and_eq_true, List.all_eq_true, decide_eq_true_eq] at hv
            exact hv.1 t ht
          rcases hleads j block hj hat t ht with rfl | h | h | rfl | h
          · exact .inl rfl
          · cases h
          · cases h
          · exact .inl rfl
          · exact .inr ⟨h, by simp only [if_pos hin, if_pos hjm]⟩
        · rcases howner j block (by omega) hat t ht with rfl | ⟨hle, heq⟩
          · exact .inl rfl
          · refine .inr ⟨by omega, ?_⟩
            have htm : ¬ t < mid.length := by omega
            simp only [if_neg htm, if_neg hjm, heq]

/-- No path leads from one body into another. -/
theorem path_owner {blocks : List VntCfgBlock} {owner : Nat → Nat} {from_ : Nat}
    (h0 : blocks[0]? = some exitNode)
    (hown : AllFrom from_ (fun j block => ∀ t ∈ block.successors,
      t = 0 ∨ (from_ ≤ t ∧ owner t = owner j)) blocks) {k b b' : Nat} {es : List CfgEvent}
    (hp : Path blocks k b es b') : from_ ≤ b → b' = 0 ∨ (from_ ≤ b' ∧ owner b' = owner b) := by
  induction hp with
  | refl b => intro hb; exact .inr ⟨hb, rfl⟩
  | step at_ edge rest ih =>
      intro hb
      rcases hown _ _ hb at_ _ edge.mem_successors with rfl | ⟨hle, heq⟩
      · obtain ⟨-, rfl⟩ := path_exit h0 rest
        exact .inl rfl
      · rcases ih hle with h | ⟨h, h'⟩
        · exact .inl h
        · exact .inr ⟨h, h'.trans heq⟩

/-- What `vnt_cfg_build` did. -/
theorem vntCfgBuild_ok {ir : Hir} {cfg : VntCfg} (h : vntCfgBuild ir = some cfg) :
    ∃ raw, buildBlocks ir = some raw ∧ pruneUnreachableBlocks (simplifyConstantBranches raw) = some cfg ∧
      vntCfgValidate cfg = true := by
  simp only [vntCfgBuild, bind, Option.bind_eq_some_iff, Option.ite_none_right_eq_some] at h
  obtain ⟨-, raw, hraw, pruned, hp, hv, ⟨⟩⟩ := h
  exact ⟨raw, hraw, hp, hv⟩

/-- **An entry block is met again only from itself**, the exit apart. -/
theorem entry_unique {ir : Hir} {cfg : VntCfg} (h : vntCfgBuild ir = some cfg) {i j k e b : Nat}
    {es : List CfgEvent} (hi : cfg.entries[i]? = some e) (hj : cfg.entries[j]? = some b)
    (hp : Path cfg.blocks k e es b) : b = cfg.exitBlock ∨ i = j := by
  obtain ⟨raw, hraw, hprune, -⟩ := vntCfgBuild_ok h
  obtain ⟨marked, kept, hm, hmem, hexit, hentries, hexit', hinj, -, hat⟩ := pruneUnreachableBlocks_ok hprune
  have hkept : ∀ e ∈ raw.entries, e ∈ kept := fun e he => (hmem e).mpr ((VntCfg.reachable_spec hm).2.1 e he)
  rw [hentries, List.getElem?_map, Option.map_eq_some_iff] at hi hj
  obtain ⟨e₀, he₀, rfl⟩ := hi
  obtain ⟨b₀, hb₀, rfl⟩ := hj
  have he₀k := hkept e₀ (List.mem_of_getElem? he₀)
  have hb₀k := hkept b₀ (List.mem_of_getElem? hb₀)
  -- The same path in the graph as it was built.
  obtain ⟨b₁, hp₁, hb₁k, heq⟩ := (renaming_prune hm hmem hat).path_back hp he₀k rfl
  rw [← hinj b₀ hb₀k b₁ hb₁k heq] at hp₁
  obtain ⟨b₂, hp₂, -, rfl⟩ := (renaming_simplify raw).path_back hp₁ trivial rfl
  simp only [buildBlocks, bind, Option.bind_eq_some_iff, Option.some.injEq] at hraw
  obtain ⟨⟨blocks, entries⟩, hb, rfl⟩ := hraw
  obtain ⟨⟨new, rfl⟩, -, -⟩ := buildEntries_built _ hb
  obtain ⟨owner, hown, hedges⟩ := buildEntries_owner _ hb (by decide)
  rw [hexit']
  rcases hown i e₀ he₀ with rfl | ⟨hle, rfl⟩
  · obtain ⟨-, heq⟩ := path_exit rfl hp₂
    exact .inl (congrArg _ heq)
  · rcases path_owner rfl hedges hp₂ hle with h0 | ⟨-, h'⟩
    · exact .inl (congrArg _ h0)
    · rcases hown j _ hb₀ with h0 | ⟨-, rfl⟩
      · exact .inl (congrArg _ h0)
      · exact .inr h'.symm

end Vnt
