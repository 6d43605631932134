import Vnt.Parse.Height

/-!
# `Parse.Bounded` — the statement parser: it returns, and how high its trees are

A statement takes a level of nesting, so the height of statements in statements is bounded like that of
expressions. One loop does not pay: the index and member steps of an assignment target are not counted. A chain of
them is as long as the source makes it (`Steps`), and the height of the tree is bounded by the limits and the
length of the longest chain (`parseStatement_sat`).
-/

namespace Vnt.Parse

open Lib Prog

/-! ## Chains of steps -/

/-- The tokens begin with `n` index and member steps, and the tokens of the last argument follow. -/
inductive Steps : List Token → Nat → List Token → Prop
  | none {ts : List Token} : Steps ts 0 ts
  | member {dot name : Token} {ts rest : List Token} {n : Nat} : dot.type = .dot → name.type = .identifier →
      Steps ts n rest → Steps (dot :: name :: ts) (n + 1) rest
  | index {l r : Token} {w ts rest : List Token} {n : Nat} : l.type = .leftBracket → r.type = .rightBracket →
      Balanced w → Steps ts n rest → Steps (l :: w ++ r :: ts) (n + 1) rest

/-- No name and assignment operator have more than `k` steps between them. -/
def ChainsAtMost (k : Nat) (ts : List Token) : Prop :=
  ∀ front name mid n operator rest, ts = front ++ name :: mid → name.type = .identifier →
    Steps mid n (operator :: rest) → (assignmentOperator operator.type).isSome → n ≤ k

theorem Steps.le_length {ts rest : List Token} {n : Nat} (h : Steps ts n rest) : n ≤ ts.length := by
  induction h with
  | none => exact Nat.zero_le _
  | member _ _ _ ih =>
      simp only [List.length_cons]
      omega
  | index _ _ _ _ ih =>
      simp only [List.cons_append, List.length_cons, List.length_append]
      omega

theorem ChainsAtMost.suffix {k : Nat} {w ts : List Token} (h : ChainsAtMost k (w ++ ts)) : ChainsAtMost k ts := by
  intro front name mid n operator rest hts
  exact h (w ++ front) name mid n operator rest (by rw [hts, List.append_assoc])

theorem ChainsAtMost.of_length {ts : List Token} : ChainsAtMost ts.length ts := by
  intro front name mid n operator rest hts _ hsteps _
  have := hsteps.le_length
  rw [hts]
  simp only [List.length_append, List.length_cons]
  omega

theorem ChainsAtMost.mono {k l : Nat} {ts : List Token} (h : ChainsAtMost k ts) (hle : k ≤ l) : ChainsAtMost l ts := by
  intro front name mid n operator rest hts hname hsteps hop
  exact Nat.le_trans (h front name mid n operator rest hts hname hsteps hop) hle

/-! ## Statements -/

/-- The height of a statement at nesting 0 when no chain has more than `k` steps. -/
def statementLimit (k : Nat) : Nat := k + vntParserMaxExpressionOperators + 2 * vntParserMaxNesting + 2

/-- A state between expressions. -/
structure AtStatement (k : Nat) (p : Parser) : Prop where
  ok : p.Ok
  outside : p.expressionDepth = 0
  chains : ChainsAtMost k p.toks

theorem AtStatement.eats {k : Nat} {p p' : Parser} {w : List Token} (hs : AtStatement k p) (h : Eats p w p') :
    AtStatement k p' :=
  ⟨h.ok, h.exprDepth.trans hs.outside, (h.toks ▸ hs.chains).suffix⟩

/-- At least one token was taken. -/
def Past (p p' : Parser) : Prop := ∃ w, w ≠ [] ∧ Eats p w p'

namespace Past

variable {p p₁ p₂ : Parser} {w : List Token}

theorem eats (h : Past p p₁) (he : Eats p₁ w p₂) : Past p p₂ := by
  obtain ⟨v, hv, he'⟩ := h
  exact ⟨v ++ w, by simp [hv], he'.trans he⟩

theorem trans (h : Past p p₁) (h' : Past p₁ p₂) : Past p p₂ := by
  obtain ⟨w, -, he⟩ := h'
  exact h.eats he

theorem ok (h : Past p p₁) : p₁.Ok := by
  obtain ⟨v, -, he⟩ := h
  exact he.ok

theorem depth (h : Past p p₁) : p₁.nestingDepth = p.nestingDepth := by
  obtain ⟨v, -, he⟩ := h
  exact he.depth

theorem at_ {k : Nat} (h : Past p p₁) (hs : AtStatement k p) : AtStatement k p₁ := by
  obtain ⟨v, -, he⟩ := h
  exact hs.eats he

theorem length_lt (h : Past p p₁) : p₁.toks.length < p.toks.length := by
  obtain ⟨v, hv, he⟩ := h
  have := he.length
  have := List.length_pos_iff.mpr hv
  omega

end Past

/-- A statement between `p` and `p'`. -/
def StatementPost (limit : Nat) (p : Parser) (a : AstNode) (p' : Parser) : Prop :=
  (∃ w, Eats p w p') ∧ (a ≠ .null → Past p p' ∧ a.height + p.nestingDepth ≤ limit)

/-- What `parse_statement` does with fewer than `m` tokens of input. -/
def StatementSpec (k m : Nat) (stmt : ParserM AstNode) : Prop :=
  ∀ p, AtStatement k p → p.toks.length < m → Sat stmt p (StatementPost (statementLimit k) p)

theorem StatementPost.null {limit : Nat} {p p' : Parser} (h : Past p p') : StatementPost limit p .null p' := by
  obtain ⟨w, -, he⟩ := h
  exact ⟨⟨w, he⟩, fun hn => absurd rfl hn⟩

theorem StatementPost.node {limit : Nat} {p p' : Parser} {a : AstNode} (h : Past p p')
    (ha : a.height + p.nestingDepth ≤ limit) : StatementPost limit p a p' := by
  obtain ⟨w, hw, he⟩ := h
  exact ⟨⟨w, he⟩, fun _ => ⟨⟨w, hw, he⟩, ha⟩⟩

section

variable {k m n : Nat} {stmt expr : ParserM AstNode} {α : Type} {Q : α → Parser → Prop} {p₀ p : Parser}

/-! ## Rules after the first token -/

theorem past_advance {f : Unit → ParserM α} (hp : Past p₀ p) (heof : p.current.type ≠ .eof)
    (hf : ∀ p', Past p₀ p' → Sat (f ()) p' Q) : Sat (parserAdvance >>= f) p Q :=
  sat_advance hp.ok heof fun p' h => hf p' (hp.eats h)

theorem past_first {f : Unit → ParserM α} (hok : p.Ok) (heof : p.current.type ≠ .eof)
    (hf : ∀ p', Past p p' → Sat (f ()) p' Q) : Sat (parserAdvance >>= f) p Q :=
  sat_advance hok heof fun p' h => hf p' ⟨_, by simp, h⟩

theorem past_consume {type : TokenType} {message : String} {f : Bool → ParserM α} (hp : Past p₀ p)
    (heof : type ≠ .eof) (hyes : ∀ p', Past p₀ p' → Sat (f true) p' Q)
    (hno : ∀ p', Past p₀ p' → Sat (f false) p' Q) : Sat (parserConsume type message >>= f) p Q :=
  sat_consume hp.ok heof (fun p' _ h => hyes p' (hp.eats h)) fun p' h => hno p' (hp.eats h)

theorem past_error {message : String} {f : Unit → ParserM α} (hp : Past p₀ p)
    (hf : ∀ p', Past p₀ p' → Sat (f ()) p' Q) : Sat (parserError message >>= f) p Q :=
  sat_error hp.ok fun p' h => hf p' (hp.eats h)

theorem past_errorAt {message : String} {f : Unit → ParserM α} (hp : Past p₀ p)
    (hf : ∀ p', Past p₀ p' → Sat (f ()) p' Q) : Sat (parserErrorAt message >>= f) p Q :=
  sat_errorAt hp.ok fun p' h => hf p' (hp.eats h)

/-- An expression of a statement; its height is bounded by the limits alone. -/
theorem past_expr {f : AstNode → ParserM α} (hexpr : ExprSpec m expr) (hs : AtStatement k p₀) (hp : Past p₀ p)
    (hlen : p₀.toks.length ≤ m) (hnull : ∀ p', Past p₀ p' → Sat (f .null) p' Q)
    (hnode : ∀ a p', a ≠ .null → Past p₀ p' →
      a.height + p₀.nestingDepth ≤ vntParserMaxNesting + vntParserMaxExpressionOperators → Sat (f a) p' Q) :
    Sat (expr >>= f) p Q := by
  have hlt := hp.length_lt
  refine (hexpr p hp.ok (by omega)).seq ?_
  rintro a p' ⟨w, he, ha⟩
  by_cases hnul : a = .null
  · subst hnul
    exact hnull p' (hp.eats he)
  · obtain ⟨-, -, hfit⟩ := ha hnul
    refine hnode a p' hnul (hp.eats he) ?_
    have hout := (hp.at_ hs).outside
    rw [Fits, Spare, if_pos hout, hp.depth] at hfit
    exact hfit

theorem past_stmt {f : AstNode → ParserM α} (hstmt : StatementSpec k m stmt) (hs : AtStatement k p₀)
    (hp : Past p₀ p) (hlen : p₀.toks.length ≤ m)
    (hf : ∀ a p', Past p₀ p' → a.height + p₀.nestingDepth ≤ statementLimit k → Sat (f a) p' Q) :
    Sat (stmt >>= f) p Q := by
  have hlt := hp.length_lt
  refine (hstmt p (hp.at_ hs) (by omega)).seq ?_
  rintro a p' ⟨⟨w, he⟩, ha⟩
  refine hf a p' (hp.eats he) ?_
  by_cases hnul : a = .null
  · subst hnul
    have := hs.ok.depth
    simp only [AstNode.height, statementLimit]
    omega
  · rw [← hp.depth]
    exact (ha hnul).2

theorem blockSteps_sat (hstmt : StatementSpec k m stmt) (hs : AtStatement k p₀) (hp : Past p₀ p)
    (hlen : p₀.toks.length ≤ m) (hn : p.toks.length ≤ n) {acc : AstNode}
    (hacc : acc.height + p₀.nestingDepth ≤ statementLimit k) :
    Sat (blockSteps stmt n acc) p fun r p' =>
      Past p₀ p' ∧ ∀ a, r = some a → a.height + p₀.nestingDepth ≤ statementLimit k := by
  have hdone : ∀ {p : Parser} {acc : AstNode}, Past p₀ p → acc.height + p₀.nestingDepth ≤ statementLimit k →
      Past p₀ p ∧ ∀ a, some acc = some a → a.height + p₀.nestingDepth ≤ statementLimit k := by
    intro p acc hp hacc
    refine ⟨hp, fun a ha => ?_⟩
    obtain rfl := Option.some.inj ha
    exact hacc
  induction n generalizing p acc with
  | zero => exact absurd hn (by simp [Parser.toks])
  | succ n ih =>
      refine sat_check (fun _ => Sat.pure (hdone hp hacc)) fun _ => ?_
      refine sat_check (fun _ => Sat.pure (hdone hp hacc)) fun _ => ?_
      have hlt := hp.length_lt
      refine (hstmt p (hp.at_ hs) (by omega)).seq ?_
      rintro a p' ⟨⟨w, he⟩, ha⟩
      refine sat_null (fun _ => Sat.pure ⟨hp.eats he, by simp⟩) fun hnode => ?_
      obtain ⟨hpast, hheight⟩ := ha hnode
      have hlt' := hpast.length_lt
      refine ih (hp.trans hpast) (by omega) ?_
      rw [AstNode.height_append]
      rw [hp.depth] at hheight
      omega

theorem past_block {f : AstNode → ParserM α} (hstmt : StatementSpec k m stmt) (hs : AtStatement k p₀)
    (hp : Past p₀ p) (hlen : p₀.toks.length ≤ m) (hn : p₀.toks.length ≤ n)
    (hf : ∀ a p', Past p₀ p' → a.height + p₀.nestingDepth ≤ statementLimit k → Sat (f a) p' Q) :
    Sat (parseBlock stmt n >>= f) p Q := by
  have hzero : (AstNode.null).height + p₀.nestingDepth ≤ statementLimit k := by
    have := hs.ok.depth
    simp only [AstNode.height, statementLimit]
    omega
  have hlt := hp.length_lt
  have hrun : Sat (parseBlock stmt n) p fun a p' => Past p₀ p' ∧ a.height + p₀.nestingDepth ≤ statementLimit k := by
    refine (blockSteps_sat hstmt hs hp hlen (by omega) hzero).seq ?_
    rintro (_ | statements) p' ⟨hp', ha⟩
    · exact Sat.pure ⟨hp', hzero⟩
    · exact past_consume hp' (by decide) (fun p₂ h₂ => Sat.pure ⟨h₂, ha statements rfl⟩) fun p₂ h₂ =>
        Sat.pure ⟨h₂, hzero⟩
  exact hrun.seq fun a p' h => hf a p' h.1 h.2

/-! ## Simple statements -/

/-- The limit inside a statement: the nesting there is one more. -/
def bodyLimit (k : Nat) : Nat := statementLimit k + 1

/-- A statement over expressions is far below the limit. -/
theorem expr_le_body {h : Nat} (hs : AtStatement k p₀)
    (hh : h + p₀.nestingDepth ≤ vntParserMaxNesting + vntParserMaxExpressionOperators) :
    h + 1 + p₀.nestingDepth ≤ bodyLimit k := by
  have := hs.ok.depth
  unfold bodyLimit statementLimit
  omega

theorem small_le_body {h : Nat} (hs : AtStatement k p₀) (hh : h ≤ 4) : h + p₀.nestingDepth ≤ bodyLimit k := by
  have := hs.ok.depth
  have hpos : 1 ≤ vntParserMaxNesting := by decide
  unfold bodyLimit statementLimit
  omega

theorem leaf_le_body (hs : AtStatement k p₀) (kind : AstLeaf) :
    (AstNode.leaf kind .null).height + p₀.nestingDepth ≤ bodyLimit k := by
  apply small_le_body hs
  simp [AstNode.height]

theorem parsePrint_sat (hexpr : ExprSpec m expr) (hs : AtStatement k p) (ht : p.current.type = .identifier)
    (hlen : p.toks.length ≤ m) : Sat (parsePrint expr) p (StatementPost (bodyLimit k) p) := by
  refine past_first hs.ok (by rw [ht]; decide) fun p₁ h₁ => ?_
  refine past_consume h₁ (by decide) (fun p₂ h₂ => ?_) fun p₂ h₂ => Sat.pure (.null h₂)
  refine past_expr hexpr hs h₂ hlen (fun p₃ h₃ => Sat.pure (.null h₃)) fun a p₃ hnode h₃ hheight => ?_
  refine sat_null (fun hnul => absurd hnul hnode) fun _ => ?_
  refine past_consume h₃ (by decide) (fun p₄ h₄ => ?_) fun p₄ h₄ => Sat.pure (.null h₄)
  exact Sat.pure (.node h₄ (by simpa [AstNode.height] using expr_le_body hs hheight))

theorem parseReturn_sat (hexpr : ExprSpec m expr) (hs : AtStatement k p) (ht : p.current.type = .identifier)
    (hlen : p.toks.length ≤ m) : Sat (parseReturn expr) p (StatementPost (bodyLimit k) p) := by
  refine past_first hs.ok (by rw [ht]; decide) fun p₁ h₁ => ?_
  refine sat_currentToken (sat_previousToken ?_)
  refine Sat.ite (fun _ => Sat.pure (.node h₁ (small_le_body hs (by decide)))) fun _ => ?_
  have herr : ∀ {p'}, Past p p' → Sat (parserErrorAt "expected expression after return." >>= fun _ => pure .null) p'
      (StatementPost (bodyLimit k) p) := fun hp => past_errorAt hp fun p'' h => Sat.pure (.null h)
  refine past_expr hexpr hs h₁ hlen (fun p₂ h₂ => herr h₂) fun a p₂ hnode h₂ hheight => ?_
  refine sat_null (fun _ => herr h₂) fun _ => ?_
  exact Sat.pure (.node h₂ (by simpa [AstNode.height] using expr_le_body hs hheight))

theorem parseLeaf_sat (kind : AstLeaf) (hs : AtStatement k p) (ht : p.current.type = .identifier) :
    Sat (parserAdvance >>= fun _ => pure (.leaf kind .null)) p (StatementPost (bodyLimit k) p) :=
  past_first hs.ok (by rw [ht]; decide) fun _ h₁ => Sat.pure (.node h₁ (leaf_le_body hs kind))

theorem parseLetDeclaration_sat (hexpr : ExprSpec m expr) (hs : AtStatement k p)
    (ht : p.current.type = .identifier) (hlen : p.toks.length ≤ m) :
    Sat (parseLetDeclaration expr) p (StatementPost (bodyLimit k) p) := by
  refine past_first hs.ok (by rw [ht]; decide) fun p₁ h₁ => ?_
  refine past_consume h₁ (by decide) (fun p₂ h₂ => ?_) fun p₂ h₂ => Sat.pure (.null h₂)
  refine sat_previousToken ?_
  refine past_consume h₂ (by decide) (fun p₃ h₃ => ?_) fun p₃ h₃ => Sat.pure (.null h₃)
  refine past_consume h₃ (by decide) (fun p₄ h₄ => ?_) fun p₄ h₄ => Sat.pure (.null h₄)
  refine sat_previousToken ?_
  refine past_consume h₄ (by decide) (fun p₅ h₅ => ?_) fun p₅ h₅ => Sat.pure (.null h₅)
  refine past_expr hexpr hs h₅ hlen (fun p₆ h₆ => Sat.pure (.null h₆)) fun a p₆ hnode h₆ hheight => ?_
  refine sat_null (fun hnul => absurd hnul hnode) fun _ => ?_
  exact Sat.pure (.node h₆ (by simpa [AstNode.height] using expr_le_body hs hheight))

theorem parseVolatile_sat (hp : Past p₀ p) : Sat parseVolatile p fun _ p' => Past p₀ p' :=
  sat_currentIs (fun ht => past_advance hp (by rw [ht]; decide) fun _ h => Sat.pure h) (Sat.pure hp)

theorem parseAsmStatement_sat (hs : AtStatement k p) (ht : p.current.type = .identifier) :
    Sat parseAsmStatement p (StatementPost (bodyLimit k) p) := by
  refine past_first hs.ok (by rw [ht]; decide) fun p₁ h₁ => ?_
  refine (parseVolatile_sat h₁).seq fun isVolatile p₂ h₂ => ?_
  refine past_consume h₂ (by decide) (fun p₃ h₃ => ?_) fun p₃ h₃ => Sat.pure (.null h₃)
  refine past_consume h₃ (by decide) (fun p₄ h₄ => ?_) fun p₄ h₄ => Sat.pure (.null h₄)
  refine sat_previousToken ?_
  refine past_consume h₄ (by decide) (fun p₅ h₅ => ?_) fun p₅ h₅ => Sat.pure (.null h₅)
  exact Sat.pure (.node h₅ (leaf_le_body hs _))

/-! ## Functions and structs -/

theorem parseParameterType_sat (hp : Past p₀ p) : Sat parseParameterType p fun _ p' => Past p₀ p' ∧
    p'.toks.length ≤ p.toks.length := by
  refine sat_check (fun hcolon => ?_) fun _ => Sat.pure ⟨hp, Nat.le_refl _⟩
  refine sat_advance hp.ok (by rw [hcolon]; decide) fun p₁ h₁ => ?_
  refine sat_check (fun ht => ?_) fun _ => ?_
  · refine sat_currentToken ?_
    exact sat_advance h₁.ok (by rw [ht]; decide) fun p₂ h₂ =>
      Sat.pure ⟨hp.eats (h₁.trans h₂), (h₁.trans h₂).length_le⟩
  · exact sat_error h₁.ok fun p₂ h₂ => Sat.pure ⟨hp.eats (h₁.trans h₂), (h₁.trans h₂).length_le⟩

theorem parseParameters_sat (hp : Past p₀ p) (hn : p.toks.length ≤ n) (acc : List (String × Option String)) :
    Sat (parseParameters n acc) p fun _ p' => Past p₀ p' := by
  induction n generalizing p acc with
  | zero => exact absurd hn (by simp [Parser.toks])
  | succ n ih =>
      refine sat_check (fun _ => Sat.pure hp) fun _ => ?_
      refine sat_check (fun ht => ?_) fun _ => past_errorAt hp fun p₁ h₁ => Sat.pure h₁
      refine sat_currentToken ?_
      refine sat_advance hp.ok (by rw [ht]; decide) fun p₁ h₁ => ?_
      have hl₁ := h₁.length
      simp only [List.length_singleton] at hl₁
      refine (parseParameterType_sat (hp.eats h₁)).seq ?_
      rintro (_ | type) p₂ ⟨h₂, hl₂⟩
      · exact Sat.pure h₂
      · refine sat_check (fun _ => Sat.pure h₂) fun _ => ?_
        refine sat_consume h₂.ok (by decide) (fun p₃ _ h₃ => ?_) fun p₃ h₃ => Sat.pure (h₂.eats h₃)
        have hl₃ := h₃.length_le
        exact ih (h₂.eats h₃) (by omega) _

theorem parseReturnType_sat (hp : Past p₀ p) : Sat parseReturnType p fun _ p' => Past p₀ p' := by
  refine sat_check (fun hminus => ?_) fun _ => Sat.pure hp
  refine past_advance hp (by rw [hminus]; decide) fun p₁ h₁ => ?_
  refine past_consume h₁ (by decide) (fun p₂ h₂ => ?_) fun p₂ h₂ => Sat.pure h₂
  refine sat_check (fun ht => ?_) fun _ => past_error h₂ fun p₃ h₃ => Sat.pure h₃
  exact sat_currentToken (past_advance h₂ (by rw [ht]; decide) fun p₃ h₃ => Sat.pure h₃)

/-- A statement over a block is one level higher than its statements. -/
theorem block_le_body {h : Nat} (hh : h + p₀.nestingDepth ≤ statementLimit k) :
    h + 1 + p₀.nestingDepth ≤ bodyLimit k := by
  unfold bodyLimit
  omega

theorem parseFunction_sat (hstmt : StatementSpec k m stmt) (hs : AtStatement k p₀) (hp : Past p₀ p ∨ p = p₀)
    (ht : p.current.type = .identifier) (hlen : p₀.toks.length ≤ m) (hn : p₀.toks.length ≤ n) (isUnsafe : Bool) :
    Sat (parseFunction stmt isUnsafe n) p (StatementPost (bodyLimit k) p₀) := by
  have hfirst : ∀ {f : Unit → ParserM AstNode}, (∀ p', Past p₀ p' → Sat (f ()) p' (StatementPost (bodyLimit k) p₀)) →
      Sat (parserAdvance >>= f) p (StatementPost (bodyLimit k) p₀) := by
    intro f hf
    rcases hp with hp | rfl
    · exact past_advance hp (by rw [ht]; decide) hf
    · exact past_first hs.ok (by rw [ht]; decide) hf
  refine hfirst fun p₁ h₁ => ?_
  refine sat_check (fun hname => ?_) fun _ => past_error h₁ fun p₂ h₂ => Sat.pure (.null h₂)
  refine sat_currentToken ?_
  refine past_advance h₁ (by rw [hname]; decide) fun p₂ h₂ => ?_
  refine past_consume h₂ (by decide) (fun p₃ h₃ => ?_) fun p₃ h₃ => Sat.pure (.null h₃)
  have hl₃ := h₃.length_lt
  refine (parseParameters_sat h₃ (by omega) []).seq ?_
  rintro (_ | parameters) p₄ h₄
  · exact Sat.pure (.null h₄)
  refine past_consume h₄ (by decide) (fun p₅ h₅ => ?_) fun p₅ h₅ => Sat.pure (.null h₅)
  refine (parseReturnType_sat h₅).seq ?_
  rintro (_ | returnType) p₆ h₆
  · exact Sat.pure (.null h₆)
  refine past_consume h₆ (by decide) (fun p₇ h₇ => ?_) fun p₇ h₇ => Sat.pure (.null h₇)
  refine past_block hstmt hs h₇ hlen hn fun body p₈ h₈ hheight => ?_
  have hdone : Sat (pure (.one (.functionDeclaration ⟨parserTokenToString p₁.current, parameters, returnType, isUnsafe⟩)
      body .null) : ParserM AstNode) p₈ (StatementPost (bodyLimit k) p₀) :=
    Sat.pure (.node h₈ (by simpa [AstNode.height] using block_le_body hheight))
  refine sat_check (fun _ => ?_) fun _ => ?_
  · exact Sat.ite (fun _ => Sat.pure (.null h₈)) fun _ => hdone
  · exact Sat.ite (fun _ => Sat.pure (.null h₈)) fun _ => hdone

theorem parseFields_sat (hp : Past p₀ p) (hn : p.toks.length ≤ n) (acc : List String) :
    Sat (parseFields n acc) p fun _ p' => Past p₀ p' := by
  induction n generalizing p acc with
  | zero => exact absurd hn (by simp [Parser.toks])
  | succ n ih =>
      refine sat_check (fun ht => ?_) fun _ => past_error hp fun p₁ h₁ => Sat.pure h₁
      refine sat_currentToken ?_
      refine sat_advance hp.ok (by rw [ht]; decide) fun p₁ h₁ => ?_
      have hl₁ := h₁.length
      simp only [List.length_singleton] at hl₁
      have hp₁ := hp.eats h₁
      refine sat_check (fun _ => Sat.pure hp₁) fun _ => ?_
      refine sat_consume hp₁.ok (by decide) (fun p₂ _ h₂ => ?_) fun p₂ h₂ => Sat.pure (hp₁.eats h₂)
      have hl₂ := h₂.length_le
      exact ih (hp₁.eats h₂) (by omega) _

theorem parseStruct_sat (hs : AtStatement k p) (ht : p.current.type = .identifier) (hn : p.toks.length ≤ n) :
    Sat (parseStruct n) p (StatementPost (bodyLimit k) p) := by
  refine past_first hs.ok (by rw [ht]; decide) fun p₁ h₁ => ?_
  refine sat_check (fun hname => ?_) fun _ => past_error h₁ fun p₂ h₂ => Sat.pure (.null h₂)
  refine sat_currentToken ?_
  refine past_advance h₁ (by rw [hname]; decide) fun p₂ h₂ => ?_
  refine past_consume h₂ (by decide) (fun p₃ h₃ => ?_) fun p₃ h₃ => Sat.pure (.null h₃)
  have hl₃ := h₃.length_lt
  have hfields : Sat (unlessClosed .rightBrace [] (parseFields n [])) p₃ fun _ p' => Past p p' :=
    sat_check (fun _ => Sat.pure h₃) fun _ => parseFields_sat h₃ (by omega) []
  refine hfields.seq ?_
  rintro (_ | fields) p₄ h₄
  · exact Sat.pure (.null h₄)
  · refine past_consume h₄ (by decide) (fun p₅ h₅ => ?_) fun p₅ h₅ => Sat.pure (.null h₅)
    exact Sat.pure (.node h₅ (leaf_le_body hs _))

theorem parseUnsafeBlock_sat (hstmt : StatementSpec k m stmt) (hs : AtStatement k p)
    (ht : p.current.type = .identifier) (hlen : p.toks.length ≤ m) (hn : p.toks.length ≤ n) :
    Sat (parseUnsafeBlock stmt n) p (StatementPost (bodyLimit k) p) := by
  refine past_first hs.ok (by rw [ht]; decide) fun p₁ h₁ => ?_
  refine sat_currentIs (fun hfun => parseFunction_sat hstmt hs (.inl h₁) hfun hlen hn true) ?_
  refine past_consume h₁ (by decide) (fun p₂ h₂ => ?_) fun p₂ h₂ => Sat.pure (.null h₂)
  refine past_block hstmt hs h₂ hlen hn fun body p₃ h₃ hheight => ?_
  have hdone : Sat (pure (.one .unsafeBlock body .null) : ParserM AstNode) p₃ (StatementPost (bodyLimit k) p) :=
    Sat.pure (.node h₃ (by simpa [AstNode.height] using block_le_body hheight))
  refine sat_check (fun _ => ?_) fun _ => ?_
  · exact Sat.ite (fun _ => Sat.pure (.null h₃)) fun _ => hdone
  · exact Sat.ite (fun _ => Sat.pure (.null h₃)) fun _ => hdone

/-! ## Control flow -/

theorem parseElse_sat (hstmt : StatementSpec k m stmt) (hs : AtStatement k p₀) (hp : Past p₀ p)
    (hlen : p₀.toks.length ≤ m) (hn : p₀.toks.length ≤ n) : Sat (parseElse stmt n) p fun r p' =>
      Past p₀ p' ∧ ∀ a, r = some a → a.height + p₀.nestingDepth ≤ statementLimit k := by
  have hsome : ∀ {a : AstNode} {p'}, Past p₀ p' → a.height + p₀.nestingDepth ≤ statementLimit k →
      Past p₀ p' ∧ ∀ b, some a = some b → b.height + p₀.nestingDepth ≤ statementLimit k := by
    intro a p' hp' ha
    refine ⟨hp', fun b hb => ?_⟩
    obtain rfl := Option.some.inj hb
    exact ha
  have hzero : (AstNode.null).height + p₀.nestingDepth ≤ statementLimit k := by
    have := hs.ok.depth
    simp only [AstNode.height, statementLimit]
    omega
  refine sat_currentIs (fun helse => ?_) (Sat.pure (hsome hp hzero))
  refine past_advance hp (by rw [helse]; decide) fun p₁ h₁ => ?_
  refine sat_currentIs (fun _ => ?_) ?_
  · refine past_stmt hstmt hs h₁ hlen fun a p₂ h₂ ha => ?_
    exact sat_null (fun _ => Sat.pure ⟨h₂, by simp⟩) fun _ => Sat.pure (hsome h₂ ha)
  · refine past_consume h₁ (by decide) (fun p₂ h₂ => ?_) fun p₂ h₂ => Sat.pure ⟨h₂, by simp⟩
    refine past_block hstmt hs h₂ hlen hn fun body p₃ h₃ hheight => ?_
    refine sat_check (fun _ => ?_) fun _ => ?_
    · exact Sat.ite (fun _ => Sat.pure ⟨h₃, by simp⟩) fun _ => Sat.pure (hsome h₃ hheight)
    · exact Sat.ite (fun _ => Sat.pure ⟨h₃, by simp⟩) fun _ => Sat.pure (hsome h₃ hheight)

/-- Behind the first branch of an `if`. -/
theorem ifRest_sat {c t : AstNode} {p₄ : Parser} (hstmt : StatementSpec k m stmt) (hs : AtStatement k p)
    (hlen : p.toks.length ≤ m) (hn : p.toks.length ≤ n) (h₄ : Past p p₄)
    (hc : c.height + p.nestingDepth ≤ vntParserMaxNesting + vntParserMaxExpressionOperators)
    (htb : t.height + p.nestingDepth ≤ statementLimit k) :
    Sat (parseElse stmt n >>= fun r =>
      match r with
      | none => pure .null
      | some e => pure (.ifStatement c t e .null)) p₄ (StatementPost (bodyLimit k) p) := by
  refine (parseElse_sat hstmt hs h₄ hlen hn).seq ?_
  rintro (_ | e) p₅ ⟨h₅, he⟩
  · exact Sat.pure (.null h₅)
  · refine Sat.pure (.node h₅ ?_)
    have hc' := expr_le_body hs hc
    have ht' := block_le_body htb
    have he' := block_le_body (he e rfl)
    simp only [AstNode.height]
    omega

theorem parseIf_sat (hstmt : StatementSpec k m stmt) (hexpr : ExprSpec m expr) (hs : AtStatement k p)
    (ht : p.current.type = .identifier) (hlen : p.toks.length ≤ m) (hn : p.toks.length ≤ n) :
    Sat (parseIf stmt expr n) p (StatementPost (bodyLimit k) p) := by
  refine past_first hs.ok (by rw [ht]; decide) fun p₁ h₁ => ?_
  refine past_expr hexpr hs h₁ hlen (fun p₂ h₂ => Sat.pure (.null h₂)) fun c p₂ hnode h₂ hc => ?_
  refine sat_null (fun hnul => absurd hnul hnode) fun _ => ?_
  refine past_consume h₂ (by decide) (fun p₃ h₃ => ?_) fun p₃ h₃ => Sat.pure (.null h₃)
  refine past_block hstmt hs h₃ hlen hn fun t p₄ h₄ htb => ?_
  have helse := ifRest_sat hstmt hs hlen hn h₄ hc htb
  refine sat_check (fun _ => ?_) fun _ => ?_
  all_goals refine sat_check (fun _ => ?_) fun _ => ?_
  all_goals exact Sat.ite (fun _ => Sat.pure (.null h₄)) fun _ => helse

theorem parseWhile_sat (hstmt : StatementSpec k m stmt) (hexpr : ExprSpec m expr) (hs : AtStatement k p)
    (ht : p.current.type = .identifier) (hlen : p.toks.length ≤ m) (hn : p.toks.length ≤ n) :
    Sat (parseWhile stmt expr n) p (StatementPost (bodyLimit k) p) := by
  refine past_first hs.ok (by rw [ht]; decide) fun p₁ h₁ => ?_
  refine past_expr hexpr hs h₁ hlen (fun p₂ h₂ => Sat.pure (.null h₂)) fun c p₂ hnode h₂ hc => ?_
  refine sat_null (fun hnul => absurd hnul hnode) fun _ => ?_
  refine past_consume h₂ (by decide) (fun p₃ h₃ => ?_) fun p₃ h₃ => Sat.pure (.null h₃)
  refine past_block hstmt hs h₃ hlen hn fun body p₄ h₄ hb => ?_
  have hdone : Sat (pure (.two .whileStatement c body .null) : ParserM AstNode) p₄
      (StatementPost (bodyLimit k) p) := by
    refine Sat.pure (.node h₄ ?_)
    have hc' := expr_le_body hs hc
    have hb' := block_le_body hb
    simp only [AstNode.height]
    omega
  refine sat_check (fun _ => ?_) fun _ => ?_
  · exact Sat.ite (fun _ => Sat.pure (.null h₄)) fun _ => hdone
  · exact Sat.ite (fun _ => Sat.pure (.null h₄)) fun _ => hdone

/-- The statements of a `for` loop are no higher than its iterable and its body make them. -/
theorem forStatements_height (counter : Nat) (name : String) (iterable body : AstNode) :
    (forStatements counter name iterable body).height = max (iterable.height + 1) (max 4 (body.height + 1)) := by
  simp only [forStatements, AstNode.height]
  omega

theorem parseFor_sat (hstmt : StatementSpec k m stmt) (hexpr : ExprSpec m expr) (hs : AtStatement k p)
    (ht : p.current.type = .identifier) (hlen : p.toks.length ≤ m) (hn : p.toks.length ≤ n) :
    Sat (parseFor stmt expr n) p (StatementPost (bodyLimit k) p) := by
  refine past_first hs.ok (by rw [ht]; decide) fun p₁ h₁ => ?_
  refine sat_check (fun hname => ?_) fun _ => past_error h₁ fun p₂ h₂ => Sat.pure (.null h₂)
  refine sat_currentToken ?_
  refine past_advance h₁ (by rw [hname]; decide) fun p₂ h₂ => ?_
  refine sat_currentIs (fun hin => ?_) (past_error h₂ fun p₃ h₃ => Sat.pure (.null h₃))
  refine past_advance h₂ (by rw [hin]; decide) fun p₃ h₃ => ?_
  refine past_expr hexpr hs h₃ hlen (fun p₄ h₄ => Sat.pure (.null h₄)) fun e p₄ hnode h₄ he => ?_
  refine sat_null (fun hnul => absurd hnul hnode) fun _ => ?_
  refine past_consume h₄ (by decide) (fun p₅ h₅ => ?_) fun p₅ h₅ => Sat.pure (.null h₅)
  refine past_block hstmt hs h₅ hlen hn fun body p₆ h₆ hb => ?_
  have hdone : Sat (nextForCounter >>= fun counter =>
      pure (forStatements counter (parserTokenToString p₁.current) e body)) p₆ (StatementPost (bodyLimit k) p) := by
    refine Sat.bind ⟨_, _, rfl, Sat.pure ?_⟩
    have hcount : Eats p₆ [] { p₆ with forCounter := p₆.forCounter + 1 } :=
      ⟨⟨h₆.ok.ready, h₆.ok.depth, h₆.ok.count⟩, rfl, rfl, rfl, fun _ => Nat.le_refl _⟩
    refine .node (h₆.eats hcount) ?_
    have he' := expr_le_body hs he
    have hb' := block_le_body hb
    have hsmall : 4 + p.nestingDepth ≤ bodyLimit k := small_le_body hs (Nat.le_refl 4)
    rw [forStatements_height]
    omega
  refine sat_check (fun _ => ?_) fun _ => ?_
  · exact Sat.ite (fun _ => Sat.pure (.null h₆)) fun _ => hdone
  · exact Sat.ite (fun _ => Sat.pure (.null h₆)) fun _ => hdone

/-! ## Assignments -/

theorem height_cloneExpression (a : AstNode) : (cloneExpression a).height ≤ a.height := by
  have hnull : ∀ h : Nat, (AstNode.null).height ≤ h := Nat.zero_le
  induction a with
  | null => exact hnull _
  | leaf kind n _ => cases kind <;> simp [cloneExpression, AstNode.height, Nat.le_max_left]
  | one kind a n iha _ =>
      cases kind
      case memberExpression | unaryExpression =>
        simp only [cloneExpression]
        split
        · exact hnull _
        · simp only [AstNode.height]
          omega
      all_goals exact hnull _
  | two kind a b n iha ihb _ =>
      cases kind
      case indexExpression | binaryExpression =>
        simp only [cloneExpression]
        split
        · exact hnull _
        · simp only [AstNode.height]
          omega
      all_goals exact hnull _
  | ifStatement => exact hnull _

/-- The steps of a target: as many levels as steps, over the name and the indices. -/
theorem targetSteps_sat (hexpr : ExprSpec m expr) (hs : AtStatement k p₀) (hp : Past p₀ p)
    (hlen : p₀.toks.length ≤ m) (hn : p.toks.length ≤ n) {target : AstNode} :
    Sat (targetSteps expr n target) p fun a p' => Past p₀ p' ∧ (a ≠ .null → ∃ steps, Steps p.toks steps p'.toks ∧
      a.height ≤ steps + max target.height (vntParserMaxNesting + vntParserMaxExpressionOperators)) := by
  induction n generalizing p target with
  | zero => exact absurd hn (by simp [Parser.toks])
  | succ n ih =>
      refine sat_check (fun hopen => ?_) fun _ => sat_check (fun hdot => ?_) fun _ => ?_
      · refine sat_advance hp.ok (by rw [hopen]; decide) fun p₁ h₁ => ?_
        have hl₁ := h₁.length
        have hlt₁ := hp.length_lt
        simp only [List.length_singleton] at hl₁
        refine (hexpr p₁ h₁.ok (by omega)).seq ?_
        rintro index p₂ ⟨w₂, he₂, hindex⟩
        have hp₂ := hp.eats (h₁.trans he₂)
        refine sat_null (fun _ => ?_) fun hnode => ?_
        · exact past_error hp₂ fun p₃ h₃ => Sat.pure ⟨h₃, fun hn => absurd rfl hn⟩
        obtain ⟨hb₂, -, hfit₂⟩ := hindex hnode
        refine sat_consume he₂.ok (by decide) (fun p₃ hclose h₃ => ?_) fun p₃ h₃ =>
          Sat.pure ⟨hp₂.eats h₃, fun hn => absurd rfl hn⟩
        have hl₂ := he₂.length_le
        have hl₃ := h₃.length_le
        refine (ih (hp₂.eats h₃) (by omega)).mono ?_
        rintro a p' ⟨hp', ha⟩
        refine ⟨hp', fun hnode => ?_⟩
        obtain ⟨steps, hsteps, hheight⟩ := ha hnode
        refine ⟨steps + 1, ?_, ?_⟩
        · rw [((h₁.trans he₂).trans h₃).toks]
          simpa using Steps.index hopen hclose hb₂ hsteps
        · have hout : p₁.expressionDepth = 0 := h₁.exprDepth.trans (hp.at_ hs).outside
          rw [Fits, Spare, if_pos hout] at hfit₂
          simp only [AstNode.height] at hheight
          omega
      · refine sat_advance hp.ok (by rw [hdot]; decide) fun p₁ h₁ => ?_
        refine sat_check (fun hname => ?_) fun _ => ?_
        · refine sat_currentToken ?_
          refine sat_advance h₁.ok (by rw [hname]; decide) fun p₂ h₂ => ?_
          have hl₁ := h₁.length
          have hl₂ := h₂.length
          simp only [List.length_singleton] at hl₁ hl₂
          refine (ih (hp.eats (h₁.trans h₂)) (by omega)).mono ?_
          rintro a p' ⟨hp', ha⟩
          refine ⟨hp', fun hnode => ?_⟩
          obtain ⟨steps, hsteps, hheight⟩ := ha hnode
          refine ⟨steps + 1, ?_, ?_⟩
          · rw [(h₁.trans h₂).toks]
            exact Steps.member hdot hname hsteps
          · simp only [AstNode.height] at hheight
            omega
        · exact past_error (hp.eats h₁) fun p₂ h₂ => Sat.pure ⟨h₂, fun hn => absurd rfl hn⟩
      · refine Sat.pure ⟨hp, fun _ => ⟨0, .none, ?_⟩⟩
        omega

theorem height_assignmentNode (target value : AstNode) :
    (assignmentNode target value).height ≤ max target.height value.height + 1 := by
  unfold assignmentNode
  split <;> simp only [AstNode.height] <;> omega

theorem height_compoundValue (operator : Option BinaryOperator) (target value : AstNode) :
    (compoundValue operator target value).height ≤ max target.height value.height + 1 := by
  have hclone := height_cloneExpression target
  unfold compoundValue
  split
  · omega
  · dsimp only
    split <;> simp only [AstNode.height] <;> omega

theorem parseFunctionCall_sat (hexpr : ExprSpec m expr) (hs : AtStatement k p₀) (hp : Past p₀ p)
    (hlen : p₀.toks.length ≤ m) (hn : p₀.toks.length ≤ n) (name : String) :
    Sat (parseFunctionCall expr name n) p (StatementPost (bodyLimit k) p₀) := by
  refine past_consume hp (by decide) (fun p₁ h₁ => ?_) fun p₁ h₁ => Sat.pure (.null h₁)
  have hlt := h₁.length_lt
  refine (finishCall_sat hexpr name h₁.ok (by omega) (by omega)).mono ?_
  rintro a p₂ ⟨w, he, ha⟩
  refine ⟨?_, fun hnode => ⟨h₁.eats he, ?_⟩⟩
  · obtain ⟨v, -, hv⟩ := h₁.eats he
    exact ⟨v, hv⟩
  · obtain ⟨-, -, hfit⟩ := ha hnode
    have hd := hs.ok.depth
    rw [Fits, Spare, if_pos (h₁.at_ hs).outside, h₁.depth] at hfit
    unfold bodyLimit statementLimit
    omega

/-- The assignment to a target that was read. -/
theorem assignmentRest_sat {target : AstNode} {name : String} {p₁ p₂ : Parser} {steps : Nat} (hexpr : ExprSpec m expr)
    (hs : AtStatement k p) (ht : p.current.type = .identifier) (hlen : p.toks.length ≤ m) (h₁ : Eats p [p.current] p₁)
    (h₂ : Past p p₂) (hsteps : Steps p₁.toks steps p₂.toks)
    (hheight : target.height ≤ steps + max (AstNode.leaf (.variable name) .null).height
      (vntParserMaxNesting + vntParserMaxExpressionOperators)) :
    Sat (currentToken >>= fun t =>
      match assignmentOperator t.type with
      | none => parserErrorAt "expected assignment operator." >>= fun _ => pure .null
      | some operator => do
          parserAdvance
          let value ← expr
          if isNull value then return .null
          let value := compoundValue operator target value
          if isNull value then
            parserError "out of memory."
            return .null
          return assignmentNode target value) p₂ (StatementPost (bodyLimit k) p) := by
  refine sat_currentToken ?_
  split
  · exact past_errorAt h₂ fun p₃ h₃ => Sat.pure (.null h₃)
  · next operator hop =>
      have heof : p₂.current.type ≠ .eof := by
        intro heq
        rw [heq] at hop
        exact absurd hop (by simp [assignmentOperator])
      -- the steps stand between the name the statement begins with and the operator
      have hchain : steps ≤ k :=
        hs.chains [] p.current p₁.toks steps p₂.current _ h₁.toks ht hsteps (by rw [hop]; rfl)
      refine past_advance h₂ heof fun p₃ h₃ => ?_
      refine past_expr hexpr hs h₃ hlen (fun p₄ h₄ => Sat.pure (.null h₄)) fun v p₄ hv h₄ hvalue => ?_
      refine sat_null (fun hnul => absurd hnul hv) fun _ => ?_
      refine sat_null (fun _ => past_error h₄ fun p₅ h₅ => Sat.pure (.null h₅)) fun _ => Sat.pure (.node h₄ ?_)
      have hcompound := height_compoundValue operator target v
      have hnode' := height_assignmentNode target (compoundValue operator target v)
      have hd := hs.ok.depth
      simp only [AstNode.height] at hheight
      unfold bodyLimit statementLimit
      omega

theorem parseIdentifierStatement_sat (hexpr : ExprSpec m expr) (hs : AtStatement k p)
    (ht : p.current.type = .identifier) (hlen : p.toks.length ≤ m) (hn : p.toks.length ≤ n) :
    Sat (parseIdentifierStatement expr n) p (StatementPost (bodyLimit k) p) := by
  refine sat_currentToken ?_
  refine sat_advance hs.ok (by rw [ht]; decide) fun p₁ h₁ => ?_
  have hp₁ : Past p p₁ := ⟨_, by simp, h₁⟩
  have hl₁ := hp₁.length_lt
  refine sat_check (fun _ => parseFunctionCall_sat hexpr hs hp₁ hlen hn _) fun _ => ?_
  refine (targetSteps_sat hexpr hs hp₁ hlen (by omega)).seq ?_
  rintro target p₂ ⟨h₂, htarget⟩
  refine sat_null (fun _ => Sat.pure (.null h₂)) fun hnode => ?_
  obtain ⟨steps, hsteps, hheight⟩ := htarget hnode
  have hassign := assignmentRest_sat hexpr hs ht hlen h₁ h₂ hsteps hheight
  refine sat_check (fun _ => ?_) fun _ => hassign
  split
  · exact parseFunctionCall_sat hexpr hs h₂ hlen hn _
  · exact hassign

theorem parseDereferenceStatement_sat (hexpr : ExprSpec m expr) (hs : AtStatement k p)
    (ht : p.current.type = .star) (hlen : p.toks.length ≤ m) :
    Sat (parseDereferenceStatement expr) p (StatementPost (bodyLimit k) p) := by
  refine past_first hs.ok (by rw [ht]; decide) fun p₁ h₁ => ?_
  have herr : ∀ {p'}, Past p p' → Sat (parserError "expected reference after '*'." >>= fun _ => pure .null) p'
      (StatementPost (bodyLimit k) p) := fun hp => past_error hp fun p'' h => Sat.pure (.null h)
  refine past_expr hexpr hs h₁ hlen (fun p₂ h₂ => herr h₂) fun a p₂ hnode h₂ ha => ?_
  refine sat_null (fun _ => herr h₂) fun _ => ?_
  refine sat_currentToken ?_
  split
  · exact past_error h₂ fun p₃ h₃ => Sat.pure (.null h₃)
  · next operator hop =>
      have heof : p₂.current.type ≠ .eof := by
        intro heq
        rw [heq] at hop
        exact absurd hop (by simp [assignmentOperator])
      refine past_advance h₂ heof fun p₃ h₃ => ?_
      refine past_expr hexpr hs h₃ hlen (fun p₄ h₄ => Sat.pure (.null h₄)) fun v p₄ hv h₄ hvalue => ?_
      refine sat_null (fun hnul => absurd hnul hv) fun _ => ?_
      refine sat_null (fun _ => Sat.pure (.null h₄)) fun _ => Sat.pure (.node h₄ ?_)
      have hcompound := height_compoundValue operator (.one (.unaryExpression .dereference) a .null) v
      have hd := hs.ok.depth
      simp only [AstNode.height] at hcompound ⊢
      unfold bodyLimit statementLimit
      have hpos : 1 ≤ vntParserMaxNesting := by decide
      omega

/-! ## The whole parser -/

theorem parseStatementBody_sat (hstmt : StatementSpec k m stmt) (hexpr : ExprSpec m expr) (hs : AtStatement k p)
    (hlen : p.toks.length ≤ m) (hn : p.toks.length ≤ n) :
    Sat (parseStatementBody stmt expr n) p (StatementPost (bodyLimit k) p) := by
  refine sat_currentIs (fun ht => parseUnsafeBlock_sat hstmt hs ht hlen hn) ?_
  refine sat_currentIs (fun ht => parseAsmStatement_sat hs ht) ?_
  refine sat_currentIs (fun ht => parseLetDeclaration_sat hexpr hs ht hlen) ?_
  refine sat_currentIs (fun ht => parsePrint_sat hexpr hs ht hlen) ?_
  refine sat_currentIs (fun ht => parseReturn_sat hexpr hs ht hlen) ?_
  refine sat_currentIs (fun ht => parseLeaf_sat .breakStatement hs ht) ?_
  refine sat_currentIs (fun ht => parseLeaf_sat .continueStatement hs ht) ?_
  refine sat_currentIs (fun ht => parseIf_sat hstmt hexpr hs ht hlen hn) ?_
  refine sat_currentIs (fun ht => parseWhile_sat hstmt hexpr hs ht hlen hn) ?_
  refine sat_currentIs (fun ht => parseFor_sat hstmt hexpr hs ht hlen hn) ?_
  refine sat_currentIs (fun ht => parseFunction_sat hstmt hs (.inr rfl) ht hlen hn false) ?_
  refine sat_currentIs (fun ht => parseStruct_sat hs ht hn) ?_
  refine sat_check (fun ht => parseDereferenceStatement_sat hexpr hs ht hlen) fun _ => ?_
  refine sat_check (fun ht => parseIdentifierStatement_sat hexpr hs ht hlen hn) fun _ => ?_
  exact sat_errorAt hs.ok fun p₁ h₁ => Sat.pure ⟨⟨_, h₁⟩, fun hn => absurd rfl hn⟩

end

/-- **The statement parser.** With more fuel than tokens it returns; a statement has taken at least one token and
    is no higher than the limits and the longest chain of steps allow. -/
theorem parseStatement_sat (strtod : List Char → Double) (k n : Nat) :
    StatementSpec k n (parseStatement strtod n) := by
  induction n with
  | zero =>
      intro p _ hlen
      exact absurd hlen (Nat.not_lt_zero _)
  | succ n ih =>
      intro p hs hlen
      refine sat_enter hs.ok (fun hlt => ?_) fun p₁ h₁ => Sat.pure ⟨⟨_, h₁⟩, fun hn => absurd rfl hn⟩
      have hs₁ : AtStatement k p.enter := ⟨⟨hs.ok.ready, hlt, hs.ok.count⟩, hs.outside, hs.chains⟩
      have hlen₁ : p.enter.toks.length ≤ n := Nat.le_of_lt_succ hlen
      refine (parseStatementBody_sat ih (parseExpression_sat strtod n) hs₁ hlen₁ hlen₁).seq ?_
      rintro a p₂ ⟨⟨w, he⟩, ha⟩
      refine Sat.bind (Sat.get (Sat.bind (Sat.modify (Sat.pure ⟨⟨w, he.leave⟩, fun hnode => ?_⟩))))
      split_ifs at hnode with hfailed
      · exact absurd rfl hnode
      · obtain ⟨⟨v, hv, he'⟩, hheight⟩ := ha hnode
        refine ⟨⟨v, hv, he'.leave⟩, ?_⟩
        rw [if_neg hfailed]
        have hle : a.height + (p.nestingDepth + 1) ≤ statementLimit k + 1 := hheight
        omega

end Vnt.Parse

/-!
## The front end on arbitrary sources

The results of the two parsers put together for a whole source: the front end returns on every NUL-terminated text
without reading behind the terminator, and the height of what it returns is bounded by its limits and the longest
chain of index and member steps in the text.
-/

namespace Vnt.Parse

open Lib Prog

/-- The tokens of a source, the end of file included. -/
def Source.tokens (source : Source) : List Token := (lexerInit source).tokens

theorem Source.length_tokens (source : Source) : source.tokens.length ≤ source.chars.length + 1 :=
  tokensFrom_length _ _

/-- The parser starts on the first token of the source. -/
theorem parserInit_ok (source : Source) (forCounter : Nat) : ∃ p, parserInit source forCounter = .ok p ∧ p.Ok ∧
    p.expressionDepth = 0 ∧ p.nestingDepth = 0 ∧ p.nestingFailed = false ∧ p.toks = source.tokens := by
  have hok : Parser.Ok ⟨lexerInit source, noToken, noToken, 0, false, 0, 0, forCounter, []⟩ :=
    ⟨Nat.zero_le _, Nat.zero_le _, Nat.zero_le _⟩
  have hfirst : noToken.type ≠ .eof := by decide
  obtain ⟨_, p, hrun, he⟩ := parserAdvance_eats hok hfirst
  refine ⟨p, ?_, he.ok, he.exprDepth, he.depth, parserAdvance_calm hrun, (List.cons.inj he.toks).2.symm⟩
  rw [parserInit, hrun]
  rfl

theorem programSteps_sat {k m n : Nat} {stmt : ParserM AstNode} (hstmt : StatementSpec k m stmt) {p : Parser}
    (hs : AtStatement k p) (hdepth : p.nestingDepth = 0) (hlen : p.toks.length < m) (hn : p.toks.length ≤ n)
    {acc : AstNode} (hacc : acc.height ≤ statementLimit k) : Sat (programSteps stmt n acc) p fun r _ =>
      ∀ a, r = some a → a.height ≤ statementLimit k := by
  induction n generalizing p acc with
  | zero => exact absurd hn (by simp [Parser.toks])
  | succ n ih =>
      refine sat_check (fun _ => Sat.pure fun a ha => Option.some.inj ha ▸ hacc) fun _ => ?_
      refine (hstmt p hs hlen).seq ?_
      rintro a p' ⟨⟨w, he⟩, ha⟩
      refine sat_null (fun _ => Sat.pure (by simp)) fun hnode => ?_
      obtain ⟨hpast, hheight⟩ := ha hnode
      have hlt := hpast.length_lt
      refine ih (hs.eats he) (he.depth.trans hdepth) (by omega) (by omega) ?_
      rw [AstNode.height_append]
      omega

/-- What the front end returns, for a source whose chains have at most `k` steps. -/
theorem parseSource_ok (strtod : List Char → Double) {source : Source} {k fuel : Nat} (forCounter : Nat)
    (hchains : ChainsAtMost k source.tokens) (hfuel : source.chars.length + 1 < fuel) :
    ∃ program, parseSource strtod fuel source forCounter = .ok program ∧
      program.height ≤ statementLimit k + 1 := by
  obtain ⟨p, hinit, hok, hout, hdepth, -, htoks⟩ := parserInit_ok source forCounter
  have hlen := source.length_tokens
  rw [← htoks] at hchains hlen
  have hrun : Sat (parserParse strtod fuel) p fun program _ => program.height ≤ statementLimit k + 1 := by
    refine (programSteps_sat (parseStatement_sat strtod k fuel) ⟨hok, hout, hchains⟩ hdepth (by omega) (by omega)
      (Nat.zero_le _)).seq ?_
    rintro (_ | statements) p' ha
    · exact Sat.pure (Nat.zero_le _)
    · refine Sat.pure ?_
      have hheight := ha statements rfl
      simp only [AstNode.height]
      omega
  obtain ⟨program, p', hparse, hheight⟩ := hrun
  refine ⟨program, ?_, hheight⟩
  rw [parseSource, hinit]
  show (parserParse strtod fuel p).map (·.1) = _
  rw [hparse]
  rfl

end Vnt.Parse
