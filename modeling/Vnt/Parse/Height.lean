import Vnt.Parse.Progress

/-!
# `Parse.Height` — how high the tree of an expression is

Inside an expression every level of the tree is paid for: a nested expression and a unary operator take one of the
levels of nesting that are left, a binary operator and a postfix step take one of the operators that are left. So
the height of what is parsed between `p` and `p'` is bounded by the levels left at `p` and the operators counted
in between (`Spare`). The same induction shows that the expression parser returns, that a result has taken at
least one token and that the square brackets of what it has taken are balanced.
-/

namespace Vnt

/-- The height of a tree: nodes of one chain stand side by side. -/
def AstNode.height : AstNode → Nat
  | .null => 0
  | .leaf _ n => max 1 n.height
  | .one _ a n => max (a.height + 1) n.height
  | .two _ a b n => max (max a.height b.height + 1) n.height
  | .ifStatement c t e n => max (max (max c.height t.height) e.height + 1) n.height

@[simp] theorem AstNode.height_append (a b : AstNode) : (a.append b).height = max a.height b.height := by
  induction a with
  | null => simp [AstNode.append, AstNode.height]
  | leaf k n ih => simp [AstNode.append, AstNode.height, ih, Nat.max_assoc]
  | one k a n _ ih => simp [AstNode.append, AstNode.height, ih, Nat.max_assoc]
  | two k a b n _ _ ih => simp [AstNode.append, AstNode.height, ih, Nat.max_assoc]
  | ifStatement c t e n _ _ _ ih => simp [AstNode.append, AstNode.height, ih, Nat.max_assoc]

namespace Parse

open Lib Prog

/-- Token lists whose square brackets match. -/
inductive Balanced : List Token → Prop
  | nil : Balanced []
  | other {t : Token} {w : List Token} : t.type ≠ .leftBracket → t.type ≠ .rightBracket → Balanced w →
      Balanced (t :: w)
  | brackets {l r : Token} {w w' : List Token} : l.type = .leftBracket → r.type = .rightBracket → Balanced w →
      Balanced w' → Balanced (l :: w ++ r :: w')

namespace Balanced

theorem append {w w' : List Token} (h : Balanced w) (h' : Balanced w') : Balanced (w ++ w') := by
  induction h with
  | nil => exact h'
  | other hl hr _ ih => exact .other hl hr ih
  | brackets hl hr hin _ _ ih =>
      rw [List.append_assoc]
      exact .brackets hl hr hin ih

theorem single {t : Token} (hl : t.type ≠ .leftBracket) (hr : t.type ≠ .rightBracket) : Balanced [t] :=
  .other hl hr .nil

end Balanced

/-- The height a tree may have above the nesting at `p`: the levels left there, and the operators counted from `p`
    to `p'`. At the start of an outermost expression the count begins anew. -/
def Spare (p p' : Parser) : Nat :=
  vntParserMaxNesting + if p.expressionDepth = 0 then vntParserMaxExpressionOperators
    else p'.expressionOperatorCount - p.expressionOperatorCount

/-- A tree of height `h` between `p` and `p'`, with `k` levels to spare. -/
def Fits (p p' : Parser) (k h : Nat) : Prop := h + p.nestingDepth ≤ Spare p p' + k

namespace Fits

variable {p p₁ p₂ p₃ : Parser} {w w' : List Token} {k h : Nat}

theorem zero (hok : p.Ok) : Fits p p₁ k 0 := by
  have := hok.depth
  unfold Fits Spare
  omega

/-- Parsing on never takes room away. -/
theorem later (h₁ : Eats p w p₁) (h₂ : Eats p₁ w' p₂) (hf : Fits p p₁ k h) : Fits p p₂ k h := by
  have hc₂ := h₂.count
  unfold Fits Spare at *
  rw [h₁.exprDepth] at hc₂
  split_ifs at * with hd
  · exact hf
  · have := hc₂ (Nat.pos_of_ne_zero hd)
    omega

/-- What was parsed later fits from an earlier start. -/
theorem earlier (h₁ : Eats p w p₁) (h₂ : Eats p₁ w' p₂) (hf : Fits p₁ p₂ k h) : Fits p p₂ k h := by
  have hc₁ := h₁.count
  have hc₂ := h₂.count
  unfold Fits Spare at *
  rw [h₁.exprDepth] at hc₂ hf
  rw [h₁.depth] at hf
  split_ifs at * with hd
  · exact hf
  · have := hc₁ (Nat.pos_of_ne_zero hd)
    have := hc₂ (Nat.pos_of_ne_zero hd)
    omega

theorem max {h' : Nat} (hf : Fits p p₁ k h) (hf' : Fits p p₁ k h') : Fits p p₁ k (max h h') := by
  unfold Fits at *
  omega

/-- A counted operator pays for one level over what stood before it … -/
theorem deeper (hd : 0 < p.expressionDepth) (h₁ : Eats p w p₁)
    (hlt : p₁.expressionOperatorCount < p₂.expressionOperatorCount) (hf : Fits p p₁ k h) : Fits p p₂ k (h + 1) := by
  have hc₁ := h₁.count hd
  unfold Fits Spare at *
  rw [if_neg (Nat.ne_of_gt hd)] at *
  omega

/-- … and over what comes after it. -/
theorem under (hd : 0 < p.expressionDepth) (h₁ : Eats p w p₁) (h₂ : Eats p₁ w' p₂)
    (hlt : p.expressionOperatorCount < p₁.expressionOperatorCount) (hf : Fits p₁ p₂ k h) : Fits p p₂ k (h + 1) := by
  have hd₁ : 0 < p₁.expressionDepth := h₁.exprDepth ▸ hd
  have hc₂ := h₂.count hd₁
  unfold Fits Spare at *
  rw [if_neg (Nat.ne_of_gt hd₁), h₁.depth] at hf
  rw [if_neg (Nat.ne_of_gt hd)]
  omega

end Fits

/-- `p` with one more level of nesting. -/
def Parser.enter (p : Parser) : Parser := { p with nestingDepth := p.nestingDepth + 1 }

/-- `p` with one level of nesting closed. -/
def Parser.leave (p : Parser) : Parser := { p with nestingDepth := p.nestingDepth - 1 }

theorem Eats.leave {p p' : Parser} {w : List Token} (h : Eats p.enter w p') : Eats p w p'.leave := by
  have hd : p'.nestingDepth = p.nestingDepth + 1 := h.depth
  have hmax := h.ok.depth
  refine ⟨⟨h.ok.ready, ?_, h.ok.count⟩, h.toks, ?_, h.exprDepth, h.count⟩
  · show p'.nestingDepth - 1 ≤ _
    omega
  · show p'.nestingDepth - 1 = _
    omega

/-- A level of nesting pays for one level of the tree. -/
theorem Fits.leave {p p' : Parser} {k h : Nat} (hf : Fits p.enter p' k h) : Fits p p'.leave k (h + 1) := by
  have hle : h + (p.nestingDepth + 1) ≤ Spare p p' + k := hf
  show h + 1 + p.nestingDepth ≤ Spare p p' + k
  omega

/-- An expression between `p` and `p'`, with `k` levels to spare. -/
def NodePost (k : Nat) (p : Parser) (a : AstNode) (p' : Parser) : Prop :=
  ∃ w, Eats p w p' ∧ (a ≠ .null → Balanced w ∧ w ≠ [] ∧ Fits p p' k a.height)

/-- A list of expressions between `p` and `p'`. -/
def ListPost (p : Parser) (r : Option AstNode) (p' : Parser) : Prop :=
  ∃ w, Eats p w p' ∧ ∀ a, r = some a → Balanced w ∧ Fits p p' 0 a.height

/-- What `parse_expression` does with fewer than `m` tokens of input. -/
def ExprSpec (m : Nat) (expr : ParserM AstNode) : Prop :=
  ∀ p, p.Ok → p.toks.length < m → Sat expr p (NodePost 0 p)

theorem NodePost.null {k : Nat} {p p' : Parser} {w : List Token} (h : Eats p w p') : NodePost k p .null p' :=
  ⟨w, h, fun hn => absurd rfl hn⟩

theorem ListPost.none {p p' : Parser} {w : List Token} (h : Eats p w p') : ListPost p none p' :=
  ⟨w, h, fun a ha => absurd ha (by simp)⟩

theorem ListPost.some {p p' : Parser} {w : List Token} {a : AstNode} (h : Eats p w p') (hb : Balanced w)
    (ha : Fits p p' 0 a.height) : ListPost p (some a) p' := by
  refine ⟨w, h, fun a' ha' => ?_⟩
  obtain rfl := Option.some.inj ha'
  exact ⟨hb, ha⟩

/-- A node without children fits everywhere. -/
theorem NodePost.leaf {p p' : Parser} {w : List Token} {kind : AstLeaf} (hok : p.Ok) (h : Eats p w p')
    (hw : Balanced w) (hne : w ≠ []) : NodePost 1 p (.leaf kind .null) p' := by
  refine ⟨w, h, fun _ => ⟨hw, hne, ?_⟩⟩
  have := hok.depth
  simp only [AstNode.height, Fits, Spare]
  omega

/-- A node over nested expressions. -/
theorem NodePost.one {p p' : Parser} {w : List Token} {kind : AstOne} {a : AstNode} (h : Eats p w p')
    (hw : Balanced w) (hne : w ≠ []) (ha : Fits p p' 0 a.height) : NodePost 1 p (.one kind a .null) p' := by
  refine ⟨w, h, fun _ => ⟨hw, hne, ?_⟩⟩
  simp only [AstNode.height, Fits] at *
  omega

section

variable {m : Nat} {expr : ParserM AstNode} {p₀ p : Parser} {n : Nat} {w : List Token} {acc : AstNode}

/-! ## Lists -/

/-- The common start of the three list loops: one expression is parsed and appended. -/
theorem sat_element {α : Type} {Q : α → Parser → Prop} {f : AstNode → ParserM α} (hexpr : ExprSpec m expr)
    (h₀ : Eats p₀ w p) (hb : Balanced w) (hacc : Fits p₀ p 0 acc.height) (hlen : p.toks.length < m)
    (hnull : ∀ p' w', Eats p₀ w' p' → Sat (f .null) p' Q)
    (hnode : ∀ a p' w', a ≠ .null → Eats p₀ w' p' → Balanced w' → Fits p₀ p' 0 (acc.append a).height →
      p'.toks.length < p.toks.length → Sat (f a) p' Q) :
    Sat (expr >>= f) p Q := by
  refine (hexpr p h₀.ok hlen).seq ?_
  rintro a p' ⟨w', he, ha⟩
  by_cases hnul : a = .null
  · subst hnul
    exact hnull p' _ (h₀.trans he)
  · obtain ⟨hb', hne, hfit⟩ := ha hnul
    refine hnode a p' _ hnul (h₀.trans he) (hb.append hb') ?_ ?_
    · rw [AstNode.height_append]
      exact (hacc.later h₀ he).max (hfit.earlier h₀ he)
    · have := he.length
      have := List.length_pos_iff.mpr hne
      omega

theorem balanced_current {w : List Token} {t : Token} {type : TokenType} (hb : Balanced w) (ht : t.type = type)
    (hl : type ≠ .leftBracket) (hr : type ≠ .rightBracket) : Balanced (w ++ [t]) :=
  hb.append (.single (ht ▸ hl) (ht ▸ hr))

theorem parseElements_sat (hexpr : ExprSpec m expr) (h₀ : Eats p₀ w p) (hb : Balanced w)
    (hacc : Fits p₀ p 0 acc.height) (hlen : p.toks.length < m) (hn : p.toks.length ≤ n) :
    Sat (parseElements expr n acc) p (ListPost p₀) := by
  induction n generalizing p w acc with
  | zero => exact absurd hn (by simp [Parser.toks])
  | succ n ih =>
      refine sat_element hexpr h₀ hb hacc hlen ?_ ?_
      · intro p' w' he
        exact sat_null (fun _ => Sat.pure (.none he)) fun hn => absurd rfl hn
      · intro a p' w' hnode he hb' hfit hlt
        refine sat_null (fun hnul => absurd hnul hnode) fun _ => ?_
        refine sat_check (fun hcomma => ?_) fun _ => Sat.pure (.some he hb' hfit)
        refine sat_advance he.ok (by rw [hcomma]; decide) fun p₂ h₂ => ?_
        have he₂ := he.trans h₂
        have hb₂ := balanced_current hb' hcomma (by decide) (by decide)
        have hfit₂ := hfit.later he h₂
        refine sat_check (fun _ => Sat.pure (.some he₂ hb₂ hfit₂)) fun _ => ?_
        have := h₂.length_le
        exact ih he₂ hb₂ hfit₂ (by omega) (by omega)

theorem parseCallArguments_sat (hexpr : ExprSpec m expr) (h₀ : Eats p₀ w p) (hb : Balanced w)
    (hacc : Fits p₀ p 0 acc.height) (hlen : p.toks.length < m) (hn : p.toks.length ≤ n) :
    Sat (parseCallArguments expr n acc) p (ListPost p₀) := by
  induction n generalizing p w acc with
  | zero => exact absurd hn (by simp [Parser.toks])
  | succ n ih =>
      refine sat_element hexpr h₀ hb hacc hlen ?_ ?_
      · intro p' w' he
        exact sat_null (fun _ => Sat.pure (.none he)) fun hn => absurd rfl hn
      · intro a p' w' hnode he hb' hfit hlt
        refine sat_null (fun hnul => absurd hnul hnode) fun _ => ?_
        refine sat_check (fun hcomma => ?_) fun _ => Sat.pure (.some he hb' hfit)
        refine sat_advance he.ok (by rw [hcomma]; decide) fun p₂ h₂ => ?_
        have he₂ := he.trans h₂
        have hb₂ := balanced_current hb' hcomma (by decide) (by decide)
        have := h₂.length_le
        refine sat_check (fun _ => ?_) fun _ => ih he₂ hb₂ (hfit.later he h₂) (by omega) (by omega)
        exact sat_error he₂.ok fun p₃ h₃ => Sat.pure (.none (he₂.trans h₃))

theorem parseArguments_sat (hexpr : ExprSpec m expr) (h₀ : Eats p₀ w p) (hb : Balanced w)
    (hacc : Fits p₀ p 0 acc.height) (hlen : p.toks.length < m) (hn : p.toks.length ≤ n) :
    Sat (parseArguments expr n acc) p (ListPost p₀) := by
  induction n generalizing p w acc with
  | zero => exact absurd hn (by simp [Parser.toks])
  | succ n ih =>
      refine sat_element hexpr h₀ hb hacc hlen ?_ ?_
      · intro p' w' he
        exact sat_null (fun _ => Sat.pure (.none he)) fun hn => absurd rfl hn
      · intro a p' w' hnode he hb' hfit hlt
        refine sat_null (fun hnul => absurd hnul hnode) fun _ => ?_
        refine sat_check (fun _ => Sat.pure (.some he hb' hfit)) fun _ => ?_
        refine sat_consume he.ok (by decide) (fun p₂ hcomma h₂ => ?_) fun p₂ h₂ => Sat.pure (.none (he.trans h₂))
        have := h₂.length_le
        exact ih (he.trans h₂) (balanced_current hb' hcomma (by decide) (by decide)) (hfit.later he h₂) (by omega)
          (by omega)

/-- A list that may close at once. -/
theorem unlessClosed_sat {close : TokenType} {items : ParserM (Option AstNode)} (h₀ : Eats p₀ w p) (hok : p₀.Ok)
    (hb : Balanced w) (hitems : Sat items p (ListPost p₀)) :
    Sat (unlessClosed close .null items) p (ListPost p₀) :=
  sat_check (fun _ => Sat.pure (.some h₀ hb (Fits.zero hok))) fun _ => hitems

/-! ## Primary expressions -/

theorem finishCall_sat (hexpr : ExprSpec m expr) (name : String) (hok : p.Ok)
    (hlen : p.toks.length < m) (hn : p.toks.length ≤ n) : Sat (finishCall expr n name) p (NodePost 1 p) := by
  have h₀ := Eats.refl hok
  refine (unlessClosed_sat h₀ hok .nil (parseArguments_sat hexpr h₀ .nil (Fits.zero hok) hlen hn)).seq ?_
  rintro (_ | arguments) p₁ ⟨w₁, he₁, hlist⟩
  · exact Sat.pure (.null he₁)
  · obtain ⟨hb₁, hfit⟩ := hlist arguments rfl
    refine sat_consume he₁.ok (by decide) (fun p₂ hparen h₂ => ?_) fun p₂ h₂ => Sat.pure (.null (he₁.trans h₂))
    exact Sat.pure (.one (he₁.trans h₂) (balanced_current hb₁ hparen (by decide) (by decide)) (by simp)
      (hfit.later he₁ h₂))

theorem parseInteger_sat (hok : p.Ok) (ht : p.current.type = .integer) :
    Sat (parseInteger p.current) p (NodePost 1 p) := by
  have herr : ∀ message, Sat (parserError message >>= fun _ => pure .null) p (NodePost 1 p) := fun _ =>
    sat_error hok fun p' h => Sat.pure (.null h)
  unfold parseInteger
  refine Sat.ite (fun _ => herr _) fun _ => ?_
  split
  · refine Sat.ite (fun _ => ?_) fun _ => herr _
    refine sat_advance hok (by rw [ht]; decide) fun p' h => ?_
    exact Sat.pure (.leaf hok h (.single (by rw [ht]; decide) (by rw [ht]; decide)) (by simp))
  · exact herr _

theorem parseFloat_sat (strtod : List Char → Double) (hok : p.Ok) (ht : p.current.type = .float) :
    Sat (parseFloat strtod p.current) p (NodePost 1 p) := by
  refine Sat.ite (fun _ => sat_error hok fun p' h => Sat.pure (.null h)) fun _ => ?_
  refine sat_advance hok (by rw [ht]; decide) fun p' h => ?_
  exact Sat.pure (.leaf hok h (.single (by rw [ht]; decide) (by rw [ht]; decide)) (by simp))

theorem parseArray_sat (hexpr : ExprSpec m expr) (hok : p.Ok) (ht : p.current.type = .leftBracket)
    (hlen : p.toks.length ≤ m) (hn : p.toks.length ≤ n + 1) : Sat (parseArray expr n) p (NodePost 1 p) := by
  refine sat_advance hok (by rw [ht]; decide) fun p₁ h₁ => ?_
  have hlt := h₁.length
  simp only [List.length_singleton] at hlt
  have hitems : Sat (parseElements expr n .null) p₁ (ListPost p₁) :=
    parseElements_sat hexpr (Eats.refl h₁.ok) .nil (Fits.zero h₁.ok) (by omega) (by omega)
  refine (unlessClosed_sat (Eats.refl h₁.ok) h₁.ok .nil hitems).seq ?_
  rintro (_ | elements) p₂ ⟨w₂, he₂, hlist⟩
  · exact Sat.pure (.null (h₁.trans he₂))
  · obtain ⟨hb₂, hfit⟩ := hlist elements rfl
    refine sat_check (fun hclose => ?_) fun _ => ?_
    · refine sat_advance he₂.ok (by rw [hclose]; decide) fun p₃ h₃ => ?_
      have hbal : Balanced ([p.current] ++ w₂ ++ [p₂.current]) := .brackets ht hclose hb₂ .nil
      exact Sat.pure (.one ((h₁.trans he₂).trans h₃) hbal (by simp)
        ((hfit.earlier h₁ he₂).later (h₁.trans he₂) h₃))
    · exact sat_error he₂.ok fun p₃ h₃ => Sat.pure (.null ((h₁.trans he₂).trans h₃))

theorem parseParenthesized_sat (hexpr : ExprSpec m expr) (hok : p.Ok) (ht : p.current.type = .leftParen)
    (hlen : p.toks.length ≤ m) : Sat (parseParenthesized expr) p (NodePost 1 p) := by
  refine sat_advance hok (by rw [ht]; decide) fun p₁ h₁ => ?_
  have hlt := h₁.length
  simp only [List.length_singleton] at hlt
  refine (hexpr p₁ h₁.ok (by omega)).seq ?_
  rintro a p₂ ⟨w₂, he₂, ha⟩
  refine sat_null (fun _ => Sat.pure (.null (h₁.trans he₂))) fun hnode => ?_
  obtain ⟨hb₂, -, hfit⟩ := ha hnode
  refine sat_check (fun hclose => ?_) fun _ => ?_
  · refine sat_advance he₂.ok (by rw [hclose]; decide) fun p₃ h₃ => ?_
    refine Sat.pure ⟨_, (h₁.trans he₂).trans h₃, fun _ => ⟨?_, by simp, ?_⟩⟩
    · exact balanced_current (.other (by rw [ht]; decide) (by rw [ht]; decide) hb₂) hclose (by decide) (by decide)
    · have hfit' : Fits p p₃ 0 a.height := (hfit.earlier h₁ he₂).later (h₁.trans he₂) h₃
      exact Nat.le_succ_of_le hfit'
  · exact sat_error he₂.ok fun p₃ h₃ => Sat.pure (.null ((h₁.trans he₂).trans h₃))

/-- A name that is not called. -/
theorem NodePost.name {p' : Parser} {w : List Token} (name : String) (hok : p.Ok) (h : Eats p w p')
    (hw : Balanced w) (hne : w ≠ []) : NodePost 1 p (nameNode name) p' := by
  unfold nameNode
  split_ifs <;> exact .leaf hok h hw hne

theorem parseName_sat (hexpr : ExprSpec m expr) (hok : p.Ok) (ht : p.current.type = .identifier)
    (hlen : p.toks.length ≤ m) (hn : p.toks.length ≤ n + 1) : Sat (parseName expr n p.current) p (NodePost 1 p) := by
  refine sat_advance hok (by rw [ht]; decide) fun p₁ h₁ => ?_
  have hlt := h₁.length
  simp only [List.length_singleton] at hlt
  have hb₁ : Balanced [p.current] := .single (by rw [ht]; decide) (by rw [ht]; decide)
  refine sat_check (fun hopen => ?_) fun _ => Sat.pure (.name _ hok h₁ hb₁ (by simp))
  refine sat_advance h₁.ok (by rw [hopen]; decide) fun p₂ h₂ => ?_
  have he₂ := h₁.trans h₂
  have hb₂ := balanced_current hb₁ hopen (by decide) (by decide)
  have := h₂.length_le
  refine (unlessClosed_sat he₂ hok hb₂
    (parseCallArguments_sat hexpr he₂ hb₂ (Fits.zero hok) (by omega) (by omega))).seq ?_
  rintro (_ | arguments) p₃ ⟨w₃, he₃, hlist⟩
  · exact Sat.pure (.null he₃)
  · obtain ⟨hb₃, hfit⟩ := hlist arguments rfl
    refine sat_check (fun hclose => ?_) fun _ => sat_error he₃.ok fun p₄ h₄ => Sat.pure (.null (he₃.trans h₄))
    refine sat_advance he₃.ok (by rw [hclose]; decide) fun p₄ h₄ => ?_
    exact Sat.pure (.one (he₃.trans h₄) (balanced_current hb₃ hclose (by decide) (by decide)) (by simp)
      (hfit.later he₃ h₄))

theorem parsePrimary_sat (strtod : List Char → Double) (hexpr : ExprSpec m expr) (hok : p.Ok)
    (hlen : p.toks.length ≤ m) (hn : p.toks.length ≤ n + 1) : Sat (parsePrimary strtod expr n) p (NodePost 1 p) := by
  refine sat_currentToken ?_
  split
  · next ht => exact parseInteger_sat hok ht
  · next ht => exact parseFloat_sat strtod hok ht
  · next ht =>
      refine sat_advance hok (by rw [ht]; decide) fun p' h => ?_
      exact Sat.pure (.leaf hok h (.single (by rw [ht]; decide) (by rw [ht]; decide)) (by simp))
  · next ht => exact parseArray_sat hexpr hok ht hlen hn
  · next ht => exact parseParenthesized_sat hexpr hok ht hlen
  · next ht => exact parseName_sat hexpr hok ht hlen hn
  · exact sat_error hok fun p' h => Sat.pure (.null h)

/-! ## Postfix and unary operators -/

theorem postfixSteps_sat {e : AstNode} (hexpr : ExprSpec m expr) (hd : 0 < p₀.expressionDepth)
    (h₀ : Eats p₀ w p) (hb : Balanced w) (hne : w ≠ []) (hfit : Fits p₀ p 1 e.height)
    (hlen : p.toks.length < m) (hn : p.toks.length ≤ n) : Sat (postfixSteps expr n e) p (NodePost 1 p₀) := by
  induction n generalizing p w e with
  | zero => exact absurd hn (by simp [Parser.toks])
  | succ n ih =>
      refine sat_check (fun hopen => ?_) fun _ => sat_check (fun hdot => ?_) fun _ =>
        Sat.pure ⟨w, h₀, fun _ => ⟨hb, hne, hfit⟩⟩
      · refine sat_note h₀.ok (fun p₁ h₁ hlt₁ => ?_) fun p₁ h₁ => Sat.pure (.null (h₀.trans h₁))
        have hcur : p₁.current = p.current := (List.cons.inj h₁.toks).1.symm
        refine sat_advance h₁.ok (by rw [hcur, hopen]; decide) fun p₂ h₂ => ?_
        have he₂ := (h₀.trans h₁).trans h₂
        have hl₁ := h₁.length
        have hl₂ := h₂.length
        simp only [List.length_nil, List.length_singleton] at hl₁ hl₂
        refine (hexpr p₂ h₂.ok (by omega)).seq ?_
        rintro index p₃ ⟨w₃, he₃, hindex⟩
        refine sat_null (fun _ => Sat.pure (.null (he₂.trans he₃))) fun hnode => ?_
        obtain ⟨hb₃, -, hfit₃⟩ := hindex hnode
        refine sat_check (fun hclose => ?_) fun _ => ?_
        · refine sat_advance he₃.ok (by rw [hclose]; decide) fun p₄ h₄ => ?_
          have hl₃ := he₃.length_le
          have hl₄ := h₄.length_le
          have he₄ := (he₂.trans he₃).trans h₄
          have hstep : Eats p₁ (([p₁.current] ++ w₃) ++ [p₃.current]) p₄ := (h₂.trans he₃).trans h₄
          have hbal : Balanced ((w ++ [] ++ [p₁.current] ++ w₃) ++ [p₃.current]) := by
            have hin : Balanced (([p₁.current] ++ w₃) ++ [p₃.current]) := .brackets (hcur ▸ hopen) hclose hb₃ .nil
            simpa using hb.append hin
          refine ih he₄ hbal (by simp) ?_ (by omega) (by omega)
          -- the operator was counted after the container and before the index
          have hcontainer : Fits p₀ p₄ 1 (e.height + 1) :=
            (hfit.deeper hd h₀ hlt₁).later (h₀.trans h₁) hstep
          have hidx : Fits p₀ p₄ 1 (index.height + 1) := by
            have hin : Fits p₀ p₄ 0 index.height := (hfit₃.later he₃ h₄).earlier he₂ (he₃.trans h₄)
            unfold Fits at *
            omega
          simpa [AstNode.height, Nat.add_max_add_right] using hcontainer.max hidx
        · exact sat_error he₃.ok fun p₄ h₄ => Sat.pure (.null ((he₂.trans he₃).trans h₄))
      · refine sat_note h₀.ok (fun p₁ h₁ hlt₁ => ?_) fun p₁ h₁ => Sat.pure (.null (h₀.trans h₁))
        have hcur : p₁.current = p.current := (List.cons.inj h₁.toks).1.symm
        refine sat_advance h₁.ok (by rw [hcur, hdot]; decide) fun p₂ h₂ => ?_
        have he₂ := (h₀.trans h₁).trans h₂
        have hb₂ : Balanced (w ++ [] ++ [p₁.current]) := by
          simpa using balanced_current hb (hcur ▸ hdot : p₁.current.type = .dot) (by decide) (by decide)
        have hl₁ := h₁.length
        have hl₂ := h₂.length
        simp only [List.length_nil, List.length_singleton] at hl₁ hl₂
        refine sat_check (fun hident => ?_) fun _ => ?_
        · refine sat_currentToken ?_
          refine sat_advance he₂.ok (by rw [hident]; decide) fun p₃ h₃ => ?_
          have he₃ := he₂.trans h₃
          have hb₃ := balanced_current hb₂ hident (by decide) (by decide)
          have hl₃ := h₃.length_le
          have hmember : Fits p₀ p₃ 1 (e.height + 1) := (hfit.deeper hd h₀ hlt₁).later (h₀.trans h₁) (h₂.trans h₃)
          have hplain : Sat (postfixSteps expr n (.one (.memberExpression (parserTokenToString p₂.current)) e .null)) p₃
              (NodePost 1 p₀) := by
            refine ih he₃ hb₃ (by simp) ?_ (by omega) (by omega)
            simpa [AstNode.height] using hmember
          refine sat_check (fun hparen => ?_) fun _ => hplain
          split
          · refine sat_advance he₃.ok (by rw [hparen]; decide) fun p₄ h₄ => ?_
            have hl₄ := h₄.length_le
            have he₄ := he₃.trans h₄
            refine (finishCall_sat hexpr _ h₄.ok (by omega) (by omega)).seq ?_
            rintro call p₅ ⟨w₅, he₅, hcall⟩
            refine sat_null (fun _ => Sat.pure (.null (he₄.trans he₅))) fun hnode => ?_
            obtain ⟨hb₅, -, hfit₅⟩ := hcall hnode
            have hl₅ := he₅.length_le
            exact ih (he₄.trans he₅) ((balanced_current hb₃ hparen (by decide) (by decide)).append hb₅) (by simp)
              (hfit₅.earlier he₄ he₅) (by omega) (by omega)
          · exact hplain
        · exact sat_error he₂.ok fun p₃ h₃ => Sat.pure (.null (he₂.trans h₃))

theorem parsePostfix_sat (strtod : List Char → Double) (hexpr : ExprSpec m expr) (hd : 0 < p.expressionDepth)
    (hok : p.Ok) (hlen : p.toks.length ≤ m) (hn : p.toks.length ≤ n + 1) :
    Sat (parsePostfix strtod expr n) p (NodePost 1 p) := by
  refine (parsePrimary_sat strtod hexpr hok hlen hn).seq ?_
  rintro a p₁ ⟨w₁, he₁, ha⟩
  refine sat_null (fun _ => Sat.pure (.null he₁)) fun hnode => ?_
  obtain ⟨hb₁, hne₁, hfit₁⟩ := ha hnode
  have hl₁ := he₁.length
  have hpos := List.length_pos_iff.mpr hne₁
  exact postfixSteps_sat hexpr hd he₁ hb₁ hne₁ hfit₁ (by omega) (by omega)

theorem parseUnary_sat (strtod : List Char → Double) (hexpr : ExprSpec m expr) (hd : 0 < p.expressionDepth)
    (hok : p.Ok) (hlen : p.toks.length ≤ m) (hn : p.toks.length ≤ n) :
    Sat (parseUnary strtod expr n) p (NodePost 1 p) := by
  induction n generalizing p with
  | zero => exact absurd hn (by simp [Parser.toks])
  | succ n ih =>
      refine sat_currentToken ?_
      split
      · exact parsePostfix_sat strtod hexpr hd hok hlen hn
      · next operator hop =>
          have htype : p.current.type ≠ .eof ∧ p.current.type ≠ .leftBracket ∧ p.current.type ≠ .rightBracket := by
            refine ⟨?_, ?_, ?_⟩ <;> intro ht <;> rw [ht] at hop <;> simp [unaryOperator] at hop
          refine sat_enter hok (fun hlt => ?_) fun p₁ h₁ => Sat.pure (.null h₁)
          have hok₁ : p.enter.Ok := ⟨hok.ready, hlt, hok.count⟩
          refine sat_advance hok₁ htype.1 fun p₂ h₂ => ?_
          have hb₂ : Balanced [p.current] := .single htype.2.1 htype.2.2
          have hl₂ : p.toks.length = 1 + p₂.toks.length := h₂.length
          refine sat_currentToken ?_
          refine Sat.ite (fun hmin => ?_) fun _ => ?_
          · have hint : p₂.current.type = .integer := by
              simp only [isMinMagnitude, Bool.and_eq_true, decide_eq_true_eq] at hmin
              exact hmin.2.1.1.1
            refine sat_advance h₂.ok (by rw [hint]; decide) fun p₃ h₃ => ?_
            refine Sat.bind (Sat.modify (Sat.pure ?_))
            exact .leaf hok (h₂.trans h₃).leave (balanced_current hb₂ hint (by decide) (by decide)) (by simp)
          · refine (ih (h₂.exprDepth ▸ hd) h₂.ok (by omega) (by omega)).seq ?_
            rintro a p₃ ⟨w₃, he₃, ha⟩
            refine Sat.bind (Sat.modify ?_)
            have hleave := (h₂.trans he₃).leave
            refine sat_null (fun _ => Sat.pure (.null hleave)) fun hnode => Sat.pure ?_
            obtain ⟨hb₃, -, hfit₃⟩ := ha hnode
            refine ⟨_, hleave, fun _ => ⟨hb₂.append hb₃, by simp, ?_⟩⟩
            show Fits p p₃.leave 1 (max (a.height + 1) 0)
            rw [Nat.max_zero]
            exact (hfit₃.earlier h₂ he₃).leave

/-! ## Binary operators -/

/-- What a level of the expression parser does with at most `m` tokens of input. -/
def LevelSpec (m : Nat) (level : ParserM AstNode) : Prop :=
  ∀ p, p.Ok → 0 < p.expressionDepth → p.toks.length ≤ m → Sat level p (NodePost 1 p)

/-- The tokens of a binary level: none of them ends the input or is a square bracket. -/
def OperatorsOnly (operators : TokenType → Option BinaryOperator) : Prop :=
  operators .eof = none ∧ operators .leftBracket = none ∧ operators .rightBracket = none

theorem binarySteps_sat {operators : TokenType → Option BinaryOperator} (hops : OperatorsOnly operators)
    {operand : ParserM AstNode} (hoperand : LevelSpec m operand) {left : AstNode} (hd : 0 < p₀.expressionDepth)
    (h₀ : Eats p₀ w p) (hb : Balanced w) (hne : w ≠ []) (hfit : Fits p₀ p 1 left.height)
    (hlen : p.toks.length ≤ m) (hn : p.toks.length ≤ n) :
    Sat (binarySteps operators operand n left) p (NodePost 1 p₀) := by
  induction n generalizing p w left with
  | zero => exact absurd hn (by simp [Parser.toks])
  | succ n ih =>
      refine sat_currentToken ?_
      split
      · exact Sat.pure ⟨w, h₀, fun _ => ⟨hb, hne, hfit⟩⟩
      · next operator hop =>
          have htype : p.current.type ≠ .eof ∧ p.current.type ≠ .leftBracket ∧ p.current.type ≠ .rightBracket := by
            obtain ⟨h₁, h₂, h₃⟩ := hops
            refine ⟨?_, ?_, ?_⟩ <;> intro ht <;> rw [ht] at hop
            · exact absurd (h₁.symm.trans hop) (by simp)
            · exact absurd (h₂.symm.trans hop) (by simp)
            · exact absurd (h₃.symm.trans hop) (by simp)
          refine sat_advance h₀.ok htype.1 fun p₁ h₁ => ?_
          have he₁ := h₀.trans h₁
          have hl₁ := h₁.length
          simp only [List.length_singleton] at hl₁
          refine sat_note h₁.ok (fun p₂ h₂ hlt₂ => ?_) fun p₂ h₂ => Sat.pure (.null (he₁.trans h₂))
          have he₂ := he₁.trans h₂
          have hl₂ := h₂.length_le
          have hd₂ : 0 < p₂.expressionDepth := he₂.exprDepth ▸ hd
          refine (hoperand p₂ h₂.ok hd₂ (by omega)).seq ?_
          rintro right p₃ ⟨w₃, he₃, hright⟩
          refine sat_null (fun _ => Sat.pure (.null (he₂.trans he₃))) fun hnode => ?_
          obtain ⟨hb₃, -, hfit₃⟩ := hright hnode
          have hl₃ := he₃.length_le
          have hbal : Balanced (w ++ [p.current] ++ [] ++ w₃) := by
            simpa using (hb.append (.single htype.2.1 htype.2.2)).append hb₃
          refine ih (he₂.trans he₃) hbal (by simp) ?_ (by omega) (by omega)
          have hleft : Fits p₀ p₃ 1 (left.height + 1) := ((hfit.later h₀ h₁).deeper hd he₁ hlt₂).later he₂ he₃
          have hlt₀ : p₀.expressionOperatorCount < p₂.expressionOperatorCount :=
            Nat.lt_of_le_of_lt (he₁.count hd) hlt₂
          have hunder : Fits p₀ p₃ 1 (right.height + 1) := hfit₃.under hd he₂ he₃ hlt₀
          simpa [AstNode.height, Nat.add_max_add_right] using hleft.max hunder

theorem parseBinary_sat {operators : TokenType → Option BinaryOperator} (hops : OperatorsOnly operators)
    {operand : ParserM AstNode} (hoperand : LevelSpec n operand) : LevelSpec n (parseBinary operators operand n) := by
  intro p hok hd hlen
  refine (hoperand p hok hd hlen).seq ?_
  rintro left p₁ ⟨w₁, he₁, hleft⟩
  refine sat_null (fun _ => Sat.pure (.null he₁)) fun hnode => ?_
  obtain ⟨hb₁, hne₁, hfit₁⟩ := hleft hnode
  have hl₁ := he₁.length_le
  exact binarySteps_sat hops hoperand hd he₁ hb₁ hne₁ hfit₁ (by omega) (by omega)

theorem parseOr_sat (strtod : List Char → Double) (hexpr : ExprSpec n expr) : LevelSpec n (parseOr strtod expr n) := by
  have hunary : LevelSpec n (parseUnary strtod expr n) := fun p hok hd hlen =>
    parseUnary_sat strtod hexpr hd hok hlen hlen
  have hmultiplication : LevelSpec n (parseMultiplication strtod expr n) := parseBinary_sat ⟨rfl, rfl, rfl⟩ hunary
  have haddition : LevelSpec n (parseAddition strtod expr n) := parseBinary_sat ⟨rfl, rfl, rfl⟩ hmultiplication
  have hcomparison : LevelSpec n (parseComparison strtod expr n) := parseBinary_sat ⟨rfl, rfl, rfl⟩ haddition
  have hequality : LevelSpec n (parseEquality strtod expr n) := parseBinary_sat ⟨rfl, rfl, rfl⟩ hcomparison
  have hand : LevelSpec n (parseAnd strtod expr n) := parseBinary_sat ⟨rfl, rfl, rfl⟩ hequality
  exact parseBinary_sat ⟨rfl, rfl, rfl⟩ hand

end

/-! ## Expressions -/

/-- The state in which the levels of an expression are parsed. -/
def Parser.openExpression (p : Parser) : Parser :=
  { p with
    nestingDepth := p.nestingDepth + 1
    expressionDepth := p.expressionDepth + 1
    expressionOperatorCount := if p.expressionDepth = 0 then 0 else p.expressionOperatorCount }

/-- The state after them. -/
def Parser.closeExpression (p : Parser) : Parser :=
  { p with nestingDepth := p.nestingDepth - 1, expressionDepth := p.expressionDepth - 1 }

theorem Eats.closeExpression {p p' : Parser} {w : List Token} (h : Eats p.openExpression w p') :
    Eats p w p'.closeExpression := by
  have hd : p'.nestingDepth = p.nestingDepth + 1 := h.depth
  have he : p'.expressionDepth = p.expressionDepth + 1 := h.exprDepth
  have hmax := h.ok.depth
  refine ⟨⟨h.ok.ready, ?_, h.ok.count⟩, h.toks, ?_, ?_, fun hpos => ?_⟩
  · show p'.nestingDepth - 1 ≤ _
    omega
  · show p'.nestingDepth - 1 = _
    omega
  · show p'.expressionDepth - 1 = _
    omega
  · have hcount : (if p.expressionDepth = 0 then 0 else p.expressionOperatorCount) ≤ p'.expressionOperatorCount :=
      h.count (Nat.succ_pos _)
    rwa [if_neg (Nat.ne_of_gt hpos)] at hcount

/-- The level of nesting an expression opens pays for the level its operands may be higher. -/
theorem Fits.closeExpression {p p' : Parser} {w : List Token} {h : Nat} (he : Eats p.openExpression w p')
    (hf : Fits p.openExpression p' 1 h) : Fits p p'.closeExpression 0 h := by
  have hle : h + (p.nestingDepth + 1) ≤ vntParserMaxNesting +
      (p'.expressionOperatorCount - if p.expressionDepth = 0 then 0 else p.expressionOperatorCount) + 1 := hf
  have hcount := he.ok.count
  show h + p.nestingDepth ≤ vntParserMaxNesting + (if p.expressionDepth = 0 then vntParserMaxExpressionOperators
    else p'.expressionOperatorCount - p.expressionOperatorCount)
  split_ifs at * <;> omega

/-- **The expression parser.** With more fuel than tokens it returns; a result has taken balanced tokens and is no
    higher than the limits allow. -/
theorem parseExpression_sat (strtod : List Char → Double) (n : Nat) : ExprSpec n (parseExpression strtod n) := by
  induction n with
  | zero =>
      intro p hok hlen
      exact absurd hlen (Nat.not_lt_zero _)
  | succ n ih =>
      intro p hok hlen
      refine Sat.bind (Sat.modify ?_)
      generalize hp₁ : (if p.expressionDepth = 0 then { p with expressionOperatorCount := 0 } else p : Parser) = p₁
      have hreset : Eats p [] p₁ ∧ p₁.openExpression = p.openExpression := by
        subst hp₁
        split_ifs with hzero
        · refine ⟨⟨⟨hok.ready, hok.depth, Nat.zero_le _⟩, rfl, rfl, rfl, fun hpos => by omega⟩, ?_⟩
          simp [Parser.openExpression, hzero]
        · exact ⟨Eats.refl hok, rfl⟩
      obtain ⟨h₁, hopen⟩ := hreset
      refine sat_enter h₁.ok (fun hlt => ?_) fun p₂ h₂ => Sat.pure (.null (h₁.trans h₂))
      refine Sat.bind (Sat.modify ?_)
      have hp₂ : ({ p₁ with nestingDepth := p₁.nestingDepth + 1, expressionDepth := p₁.expressionDepth + 1 } : Parser) =
          p.openExpression := by
        rw [← hopen, Parser.openExpression]
        subst hp₁
        split_ifs <;> rfl
      have hok₂ : p.openExpression.Ok := by
        rw [← hp₂]
        exact ⟨h₁.ok.ready, hlt, h₁.ok.count⟩
      show Sat (parseOr strtod (parseExpression strtod n) n >>= _)
        { p₁ with nestingDepth := p₁.nestingDepth + 1, expressionDepth := p₁.expressionDepth + 1 } _
      rw [hp₂]
      have hlen₂ : p.openExpression.toks.length ≤ n := Nat.le_of_lt_succ hlen
      refine (parseOr_sat strtod ih p.openExpression hok₂ (Nat.succ_pos _) hlen₂).seq ?_
      rintro a p₃ ⟨w, he, ha⟩
      refine Sat.bind (Sat.modify (Sat.bind (Sat.modify (Sat.bind (Sat.get ?_)))))
      refine Sat.ite (fun _ => Sat.pure (.null he.closeExpression)) fun _ => Sat.pure ⟨w, he.closeExpression, ?_⟩
      intro hnode
      obtain ⟨hb, hne, hfit⟩ := ha hnode
      have hclose : Fits p p₃.closeExpression 0 a.height := Fits.closeExpression he hfit
      exact ⟨hb, hne, hclose⟩

end Parse

end Vnt
