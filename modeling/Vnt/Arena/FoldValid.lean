import Vnt.Arena.Rework
import Vnt.Arena.Optimize

/-!
# `Arena.FoldValid` — folding and substitution keep the tree

Folding turns a node into a literal and drops its children; substitution turns a variable into a literal and touches
no link at all. Both end on every tree within the fuel that its size asks for.
-/

namespace Vnt.Arena

open Lib

variable {nodes nodes' nodes'' : List VntIrNode}

/-! ## Literals -/

theorem siblingRole_chain {role : VntIrEdgeRole} {cs : List Nat} {l : Option Nat} (h : Chain nodes l cs) {fuel : Nat}
    (hf : cs.length ≤ fuel) : ∃ r, siblingRole nodes role fuel l = .ok r ∧ ∀ c, r = some c → c ∈ cs := by
  induction cs generalizing l fuel with
  | nil =>
      cases h
      exact ⟨none, by cases fuel <;> rfl, by simp⟩
  | cons c cs ih =>
      obtain ⟨rfl, n, hn, hcs⟩ := h
      cases fuel with
      | zero => exact absurd hf (by simp)
      | succ fuel =>
          simp only [siblingRole, access_eq_ok.mpr hn, bind, Except.bind]
          split
          · refine ⟨some c, rfl, fun d hd => ?_⟩
            cases hd
            exact List.mem_cons_self
          · obtain ⟨r, hr, hmem⟩ := ih hcs (Nat.le_of_succ_le_succ hf)
            exact ⟨r, hr, fun d hd => List.mem_cons_of_mem _ (hmem d hd)⟩

/-- An opcode that carries no names and no type has none. -/
theorem PayloadFits.plain {n : VntIrNode} {op : VntIrOpcode} (h : PayloadFits n op) (hf : op ≠ .function)
    (hs : op ≠ .struct) (hv : op ≠ .variableDecl) (hr : op ≠ .reassign) : n.nameCount = 0 ∧ n.typeName = none := by
  constructor
  · by_contra hne
    rcases (h.names hne).1 with h | h
    · exact hf h
    · exact hs h
  · by_contra hne
    rcases h.typeName hne with h | h
    · exact hv h
    · exact hr h

/-- A node without names and type can take any opcode that asks for no payload. -/
theorem payloadFits_bare {n : VntIrNode} {op : VntIrOpcode} (hn : n.nameCount = 0) (ht : n.typeName = none)
    (hop : op.hasText = false) (hb : op ≠ .binary) (hu : op ≠ .unary) : PayloadFits n op where
  text := fun h => by rw [hop] at h; cases h
  names := fun h => absurd hn h
  typeName := fun h => absurd ht h
  binary := fun h => absurd h hb
  unary := fun h => absurd h hu

theorem constantOpcode_bare (c : HirConstant) : (constantOpcode c).hasText = false ∧ constantOpcode c ≠ .binary ∧
    constantOpcode c ≠ .unary ∧ constantOpcode c ≠ .variable := by
  cases c <;> simp [constantOpcode]

theorem shape_constant (c : HirConstant) : Shape [] (constantOpcode c) := by
  cases c <;> rfl

/-! ## Folding -/

theorem foldedConstant_total {f : FloatUnit} {fuel index : Nat} {left right : Option Nat} {n : VntIrNode}
    {cs : List Nat} (hn : nodes[index]? = some n) (hchain : Chain nodes n.firstChild cs) (hf : cs.length ≤ fuel) :
    ∃ r, foldedConstant f fuel nodes index left right = .ok r ∧
      (r ≠ none → n.opcode = some .unary ∨ n.opcode = some .binary) := by
  simp only [foldedConstant, access_eq_ok.mpr hn, bind, Except.bind, pure, Except.pure]
  split
  · rename_i hop
    obtain ⟨r, hr, -⟩ : ∃ r, siblingRole nodes .operand fuel n.firstChild = .ok r ∧ ∀ c, r = some c → c ∈ cs :=
      siblingRole_chain hchain hf
    rw [hr]
    cases r with
    | none => exact ⟨none, rfl, fun h => absurd rfl h⟩
    | some operand => exact ⟨_, rfl, fun _ => .inl hop⟩
  · split
    · rename_i hop
      exact ⟨_, rfl, fun _ => .inr hop⟩
    · exact ⟨none, rfl, fun h => absurd rfl h⟩

/-- Folding one node whose children are done. -/
theorem NodeReworked.folded {index : Nat} {n : VntIrNode} {ch : Forest} (hn : nodes[index]? = some n)
    (hfit : NodeFits nodes n ch.roots) (hop : n.opcode = some .unary ∨ n.opcode = some .binary) (c : HirConstant) :
    NodeReworked NodeFits nodes (nodes.set index (n.folded c)) index ch .nil where
  length := List.length_set
  frame := by
    intro j hj
    rw [getElem?_set_ne']
    rintro rfl
    exact hj List.mem_cons_self
  node := by
    refine ⟨n, n.folded c, hn, getElem?_set_self' hn, rfl, rfl, rfl, ?_⟩
    obtain ⟨op, hop', hpay, -⟩ := hfit.opcode
    have hplain : n.nameCount = 0 ∧ n.typeName = none := by
      rcases hop with h | h
      · obtain rfl : op = .unary := Option.some.inj (hop'.symm.trans h)
        exact hpay.plain (by simp) (by simp) (by simp) (by simp)
      · obtain rfl : op = .binary := Option.some.inj (hop'.symm.trans h)
        exact hpay.plain (by simp) (by simp) (by simp) (by simp)
    obtain ⟨htext, hb, hu, -⟩ := constantOpcode_bare c
    exact ⟨rfl, rfl, constantOpcode c, rfl, payloadFits_bare hplain.1 hplain.2 htext hb hu, shape_constant c⟩
  program := by
    intro m m' hm _ hprogram
    obtain rfl : n = m := Option.some.inj (hn.symm.trans hm)
    rw [hprogram] at hop
    rcases hop with h | h <;> cases h
  fits := fits_nil
  kept := List.nil_sublist _

/-- One node, given what the loop does to its children. -/
theorem hirFoldNode_of_children {f : FloatUnit} {fuel index changed : Nat} {n : VntIrNode} {ch ch' : Forest}
    {left right : Option Nat} {changed' : Nat} (hn : nodes[index]? = some n) (hi : index ∉ ch.indices)
    (hfit : NodeFits nodes n ch.roots) (hf : ch.roots.length ≤ fuel)
    (hrun : hirFoldChildren f fuel nodes n.firstChild changed none none = .ok (nodes', changed', left, right))
    (h : Reworked nodes nodes' n.firstChild ch ch') :
    ∃ nodes'' changed'' ch'', hirFoldNode f (fuel + 1) nodes index changed = .ok (nodes'', changed'') ∧
      NodeReworked NodeFits nodes nodes'' index ch ch'' := by
  have hdone := NodeReworked.of_children hn hi hfit h
  obtain ⟨m, n', hm, hn', -, -, hlinked, hfit'⟩ := hdone.node
  have hsame : n' = n := by
    rw [h.frame index hi, hn] at hn'
    exact (Option.some.inj hn').symm
  subst hsame
  obtain ⟨r, hr, hop⟩ : ∃ r, foldedConstant f fuel nodes' index left right = .ok r ∧
      (r ≠ none → n'.opcode = some .unary ∨ n'.opcode = some .binary) :=
    foldedConstant_total hn' hlinked.chain (h.roots ▸ hf)
  simp only [hirFoldNode, access_eq_ok.mpr hn, hrun, hr, bind, Except.bind, pure, Except.pure]
  cases r with
  | none => exact ⟨nodes', changed', ch', rfl, hdone⟩
  | some c =>
      simp only [access_eq_ok.mpr hn']
      exact ⟨_, _, .nil, rfl, hdone.trans (NodeReworked.folded hn' hfit' (hop (by simp)) c)⟩

/-- The loop over a chain of siblings. -/
theorem hirFoldChildren_reworked {f : FloatUnit} (g : Forest) : ∀ (nodes : List VntIrNode) (fuel changed : Nat)
    (l left right : Option Nat), Linked nodes l g → Fits nodes g → g.indices.Nodup → 2 * g.indices.length ≤ fuel →
      ∃ nodes' changed' left' right' g',
        hirFoldChildren f fuel nodes l changed left right = .ok (nodes', changed', left', right') ∧
          Reworked nodes nodes' l g g' := by
  induction g with
  | nil =>
      intro nodes fuel changed l left right hl _ _ _
      obtain rfl : l = none := hl
      exact ⟨nodes, changed, left, right, .nil, by cases fuel <;> rfl, Reworked.nil⟩
  | node i ch sib ihc ihs =>
      intro nodes fuel changed l left right hl hfits hnd hf
      obtain ⟨rfl, n, hn, hch, hsib⟩ := hl
      obtain ⟨⟨m, hm, hfit⟩, hfc, hfs⟩ := fits_node.mp hfits
      obtain rfl : n = m := Option.some.inj (hn.symm.trans hm)
      have hnd' := hnd
      rw [Forest.indices_node, List.nodup_cons, List.nodup_append] at hnd'
      obtain ⟨hi, hndc, hnds, -⟩ := hnd'
      rw [Forest.indices_node, List.length_cons, List.length_append] at hf
      obtain ⟨fuel, rfl⟩ : ∃ k, fuel = k + 2 := ⟨fuel - 2, by omega⟩
      obtain ⟨nodes₁, changed₁, left₁, right₁, ch₁, hrun₁, hre₁⟩ :=
        ihc nodes fuel changed n.firstChild none none hch hfc hndc (by omega)
      have hroots := (Forest.roots_sublist_indices ch).length_le
      obtain ⟨nodes₂, changed₂, ch₂, hrun₂, hre₂⟩ := hirFoldNode_of_children hn
        (fun hmem => hi (List.mem_append_left _ hmem)) hfit (by omega) hrun₁ hre₁
      obtain ⟨hsib₂, hfs₂⟩ := hre₂.siblings hnd hsib hfs
      obtain ⟨m, n₂, hm, hn₂, -, hnext, -⟩ := hre₂.node
      obtain rfl : n = m := Option.some.inj (hn.symm.trans hm)
      obtain ⟨nodes₃, changed₃, left₃, right₃, sib₃, hrun₃, hre₃⟩ := ihs nodes₂ (fuel + 1) changed₂ n.nextSibling
        (if n.role = some .left then some i else left) (if n.role = some .right then some i else right) hsib₂ hfs₂
        hnds (by omega)
      refine ⟨nodes₃, changed₃, left₃, right₃, .node i ch₂ sib₃, ?_, NodeReworked.cons hnd hn hre₂ hre₃⟩
      rw [← hnext] at hrun₃
      simp only [hirFoldChildren, access_eq_ok.mpr hn, hrun₂, access_eq_ok.mpr hn₂, hrun₃, bind, Except.bind]

/-- A chain of trees, all nodes as their opcodes ask, and no node twice. -/
structure Grove (nodes : List VntIrNode) (l : Option Nat) (f : Forest) : Prop where
  linked : Linked nodes l f
  fits : Fits nodes f
  nodup : f.indices.Nodup

/-- A tree: node `index` with the forest `ch` below it, all as their opcodes ask, and no node twice. -/
structure Tree (nodes : List VntIrNode) (index : Nat) (n : VntIrNode) (ch : Forest) : Prop where
  at_index : nodes[index]? = some n
  linked : Linked nodes n.firstChild ch
  nodeFits : NodeFits nodes n ch.roots
  fits : Fits nodes ch
  nodup : (index :: ch.indices).Nodup

theorem Tree.grove {index : Nat} {n : VntIrNode} {ch : Forest} (h : Tree nodes index n ch) :
    Grove nodes n.firstChild ch :=
  ⟨h.linked, h.fits, (List.nodup_cons.mp h.nodup).2⟩

/-- The first tree of a chain, and the rest. -/
theorem Grove.cons {i : Nat} {l : Option Nat} {ch sib : Forest} (h : Grove nodes l (.node i ch sib)) :
    l = some i ∧ ∃ n, Tree nodes i n ch ∧ Grove nodes n.nextSibling sib := by
  obtain ⟨hl, n, hn, hch, hsib⟩ := h.linked
  obtain ⟨⟨m, hm, hfit⟩, hfc, hfs⟩ := fits_node.mp h.fits
  obtain rfl : n = m := Option.some.inj (hn.symm.trans hm)
  have hnd := h.nodup
  rw [Forest.indices_node, ← List.cons_append, List.nodup_append] at hnd
  exact ⟨hl, n, ⟨hn, hch, hfit, hfc, hnd.1⟩, hsib, hfs, hnd.2.1⟩

/-- Every node of a chain is the root of a smaller tree. -/
theorem Grove.child {l : Option Nat} {f : Forest} (h : Grove nodes l f) {c : Nat} (hc : c ∈ f.roots) :
    ∃ m sub, Tree nodes c m sub ∧ sub.indices.length < f.indices.length := by
  induction f generalizing l with
  | nil => cases hc
  | node i ch sib _ ih =>
      obtain ⟨-, n, htree, hrest⟩ := h.cons
      rw [Forest.indices_node, List.length_cons, List.length_append]
      rcases List.mem_cons.mp hc with rfl | hc
      · exact ⟨n, ch, htree, by omega⟩
      · obtain ⟨m, sub, htree', hlt⟩ := ih hrest hc
        exact ⟨m, sub, htree', by omega⟩

theorem Tree.reworked {index : Nat} {n : VntIrNode} {ch ch' : Forest} (h : Tree nodes index n ch)
    (h' : NodeReworked NodeFits nodes nodes' index ch ch') :
    ∃ n', Tree nodes' index n' ch' ∧ n'.role = n.role ∧ (n.opcode = some .program → n'.opcode = some .program) := by
  obtain ⟨m, n', hm, hn', hrole, -, hlinked, hfit⟩ := h'.node
  obtain rfl : n = m := Option.some.inj (h.at_index.symm.trans hm)
  exact ⟨n', ⟨hn', hlinked, hfit, h'.fits, h.nodup.sublist (h'.kept.cons_cons index)⟩, hrole,
    h'.program n n' hm hn'⟩

theorem hirFoldNode_reworked {f : FloatUnit} {fuel index : Nat} (changed : Nat) {n : VntIrNode} {ch : Forest}
    (h : Tree nodes index n ch) (hf : 2 * ch.indices.length < fuel) :
    ∃ nodes' changed' ch', hirFoldNode f fuel nodes index changed = .ok (nodes', changed') ∧
      NodeReworked NodeFits nodes nodes' index ch ch' := by
  obtain ⟨hi, hnd⟩ := List.nodup_cons.mp h.nodup
  obtain ⟨fuel, rfl⟩ : ∃ k, fuel = k + 1 := ⟨fuel - 1, by omega⟩
  obtain ⟨nodes₁, changed₁, left, right, ch₁, hrun, hre⟩ :=
    @hirFoldChildren_reworked f ch nodes fuel changed n.firstChild none none h.linked h.fits hnd (by omega)
  have hroots := (Forest.roots_sublist_indices ch).length_le
  exact hirFoldNode_of_children h.at_index hi h.nodeFits (by omega) hrun hre

/-! ## Substitution -/

/-- Some variables have become literals; nothing else has changed. -/
def Substituted (nodes nodes' : List VntIrNode) : Prop :=
  nodes'.length = nodes.length ∧ ∀ (j : Nat) (n : VntIrNode), nodes[j]? = some n →
    ∃ n', nodes'[j]? = some n' ∧ (n' = n ∨ n.opcode = some .variable ∧ ∃ c, n' = n.replaced c)

theorem Substituted.refl (nodes : List VntIrNode) : Substituted nodes nodes :=
  ⟨rfl, fun _ n hn => ⟨n, hn, .inl rfl⟩⟩

theorem Substituted.trans (h : Substituted nodes nodes') (h' : Substituted nodes' nodes'') :
    Substituted nodes nodes'' := by
  refine ⟨h'.1.trans h.1, fun j n hn => ?_⟩
  obtain ⟨n', hn', hstep⟩ := h.2 j n hn
  obtain ⟨n'', hn'', hstep'⟩ := h'.2 j n' hn'
  refine ⟨n'', hn'', ?_⟩
  rcases hstep with rfl | ⟨hop, c, rfl⟩
  · exact hstep'
  · rcases hstep' with rfl | ⟨hop', -⟩
    · exact .inr ⟨hop, c, rfl⟩
    · -- A literal is no variable.
      exact absurd (Option.some.inj hop') (constantOpcode_bare c).2.2.2

theorem Substituted.set {index : Nat} {n : VntIrNode} (hn : nodes[index]? = some n) (hop : n.opcode = some .variable)
    (c : HirConstant) : Substituted nodes (nodes.set index (n.replaced c)) := by
  refine ⟨List.length_set, fun j m hm => ?_⟩
  by_cases hij : index = j
  · subst hij
    obtain rfl : n = m := Option.some.inj (hn.symm.trans hm)
    exact ⟨n.replaced c, getElem?_set_self' hn, .inr ⟨hop, c, rfl⟩⟩
  · exact ⟨m, by rw [getElem?_set_ne' hij, hm], .inl rfl⟩

/-- The links and the roles stay. -/
theorem Substituted.node {j : Nat} {n : VntIrNode} (h : Substituted nodes nodes') (hn : nodes[j]? = some n) :
    ∃ n', nodes'[j]? = some n' ∧ n'.firstChild = n.firstChild ∧ n'.nextSibling = n.nextSibling ∧ n'.role = n.role ∧
      n'.childCount = n.childCount ∧ n'.lastChild = n.lastChild := by
  obtain ⟨n', hn', rfl | ⟨-, c, rfl⟩⟩ := h.2 j n hn
  · exact ⟨n', hn', rfl, rfl, rfl, rfl, rfl⟩
  · exact ⟨_, hn', rfl, rfl, rfl, rfl, rfl⟩

theorem Substituted.linked (h : Substituted nodes nodes') {f : Forest} : ∀ {l : Option Nat}, Linked nodes l f →
    Linked nodes' l f := by
  induction f with
  | nil => intro l hl; exact hl
  | node i ch sib ihc ihs =>
      intro l hl
      obtain ⟨rfl, n, hn, hch, hsib⟩ := hl
      obtain ⟨n', hn', hfirst, hnext, -⟩ := h.node hn
      exact ⟨rfl, n', hn', hfirst ▸ ihc hch, hnext ▸ ihs hsib⟩

theorem Substituted.roles (h : Substituted nodes nodes') {f : Forest} {l : Option Nat} (hl : Linked nodes l f) :
    rolesOf nodes' f.roots = rolesOf nodes f.roots := by
  refine List.map_congr_left fun c hc => ?_
  obtain ⟨n, hn⟩ : ∃ n, nodes[c]? = some n :=
    ⟨_, List.getElem?_eq_getElem (hl.lt c (Forest.mem_indices_of_mem_roots hc))⟩
  obtain ⟨n', hn', -, -, hrole, -⟩ := h.node hn
  rw [hn, hn', Option.bind_some, Option.bind_some, hrole]

theorem Substituted.nodeFits (h : Substituted nodes nodes') {j : Nat} {n n' : VntIrNode} {f : Forest} {l : Option Nat}
    (hl : Linked nodes l f) (hn : nodes[j]? = some n) (hn' : nodes'[j]? = some n') (hfit : NodeFits nodes n f.roots) :
    NodeFits nodes' n' f.roots := by
  obtain ⟨m, hm, hstep⟩ := h.2 j n hn
  obtain rfl : n' = m := Option.some.inj (hn'.symm.trans hm)
  have hcongr := hfit.congr (h.roles hl)
  rcases hstep with rfl | ⟨hop, c, rfl⟩
  · exact hcongr
  · obtain ⟨op, hop', hpay, hshape⟩ := hcongr.opcode
    obtain rfl : op = .variable := Option.some.inj (hop'.symm.trans hop)
    obtain ⟨hnames, htype⟩ := hpay.plain (by simp) (by simp) (by simp) (by simp)
    obtain ⟨htext, hb, hu, -⟩ := constantOpcode_bare c
    refine ⟨hcongr.childCount, hcongr.lastChild, constantOpcode c, rfl,
      payloadFits_bare hnames htype htext hb hu, ?_⟩
    have hnone : rolesOf nodes' f.roots = [] := hshape
    rw [hnone]
    exact shape_constant c

theorem Substituted.fits (h : Substituted nodes nodes') {f : Forest} : ∀ {l : Option Nat}, Linked nodes l f →
    Fits nodes f → Fits nodes' f := by
  induction f with
  | nil => intro l _ _; exact fits_nil
  | node i ch sib ihc ihs =>
      intro l hl hfits
      obtain ⟨-, n, hn, hch, hsib⟩ := hl
      obtain ⟨⟨m, hm, hfit⟩, hfc, hfs⟩ := fits_node.mp hfits
      obtain rfl : n = m := Option.some.inj (hn.symm.trans hm)
      obtain ⟨n', hn', -⟩ := h.2 i n hn
      exact fits_node.mpr ⟨⟨n', hn', h.nodeFits hch hn hn' hfit⟩, ihc hch hfc, ihs hsib hfs⟩

theorem Substituted.grove (h : Substituted nodes nodes') {l : Option Nat} {f : Forest} (hg : Grove nodes l f) :
    Grove nodes' l f :=
  ⟨h.linked hg.linked, h.fits hg.linked hg.fits, hg.nodup⟩

/-- Substitution keeps a tree. -/
theorem Substituted.tree (h : Substituted nodes nodes') {index : Nat} {n : VntIrNode} {ch : Forest}
    (ht : Tree nodes index n ch) :
    ∃ n', Tree nodes' index n' ch ∧ n'.role = n.role ∧ n'.nextSibling = n.nextSibling ∧
      n'.firstChild = n.firstChild := by
  obtain ⟨n', hn', hfirst, hnext, hrole, -⟩ := h.node ht.at_index
  refine ⟨n', ⟨hn', ?_, h.nodeFits ht.linked ht.at_index hn' ht.nodeFits, h.fits ht.linked ht.fits, ht.nodup⟩, hrole,
    hnext, hfirst⟩
  rw [hfirst]
  exact h.linked ht.linked

end Vnt.Arena
