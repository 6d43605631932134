import Vnt.Cfg.Returns
import Vnt.Compile.CfgAccepted

/-!
# `Compile.Returns` — typed functions return on every path

The checker asks two things of a function with an explicit return type other than `void`: each of its `return`s
carries a value, and its statement list returns by the rule of `statement_list_returns`. Lowering keeps both
(`Cfg.Returns` has them on the HIR), and the graph lists its entries in the order of the declarations, so the
entry of a typed function is the entry of a body that cannot fall off its end.
-/

namespace Vnt

open Lib

/-! ## The functions of a program -/

/-- The function declarations of a statement list at any depth, in source order. -/
@[simp] def AstNode.functions : AstNode → List (FunctionHeader × AstNode)
  | .null => []
  | .leaf _ n => n.functions
  | .one (.functionDeclaration h) body n => (h, body) :: (body.functions ++ n.functions)
  | .one .unsafeBlock body n => body.functions ++ n.functions
  | .one _ _ n => n.functions
  | .two .whileStatement _ body n => body.functions ++ n.functions
  | .two _ _ _ n => n.functions
  | .ifStatement _ t e n => t.functions ++ (e.functions ++ n.functions)

/-- The functions of a program. -/
def programFunctions : AstNode → List (FunctionHeader × AstNode)
  | .one .program statements _ => statements.functions
  | _ => []

/-- An explicit return type other than `void`. -/
def FunctionHeader.isTyped (h : FunctionHeader) : Bool :=
  match h.returnType with
  | some t => typeFromName t != .void
  | none => false

/-! ## What the checker has seen -/

theorem statementListReturns_checked {tc tc' : TypeChecker} {n n' : AstNode} (h : Checked tc n tc' n') :
    statementListReturns n' = statementListReturns n := by
  have bne : ∀ {tc tc' : TypeChecker} {e e' : AstNode}, Checked tc e tc' e' → (e' != .null) = (e != .null) := by
    intro tc tc' e e' h
    cases h <;> rfl
  induction h with
  | null => rfl
  | leaf _ _ ih => exact ih
  | declaration _ _ _ ih => exact ih
  | print _ _ ih => exact ih
  | returnStatement _ _ _ _ => rfl
  | call _ _ ih => exact ih
  | unsafeBlock _ _ ihb ihn => rw [statementListReturns, statementListReturns, ihb, ihn]
  | function _ _ _ _ ihn => exact ihn
  | @inertOne _ _ kind _ _ _ inert _ ih => cases kind <;> first | exact ih | cases inert
  | assignment _ _ _ ih => exact ih
  | whileStatement _ _ _ _ ihn => exact ihn
  | inertTwo _ _ ih => exact ih
  | ifStatement _ _ _ helse _ iht ihe ihn =>
      rw [statementListReturns, statementListReturns, iht, ihe, ihn, bne helse]

/-- The rule is the same before and after lowering. -/
theorem hirReturns_lowerList (n : AstNode) : statementShape n = true →
    hirReturns (lowerList n) = statementListReturns n := by
  induction n with
  | null => intro _; rfl
  | leaf kind n hn =>
      intro hs
      rw [statementShape, Bool.and_eq_true] at hs
      exact hn hs.2
  | one kind child n hc hn =>
      intro hs
      cases kind with
      | unsafeBlock =>
          simp only [statementShape, Bool.and_eq_true] at hs
          show (hirReturns (lowerList child) || hirReturns (lowerList n)) = _
          rw [hc hs.1, hn hs.2, statementListReturns]
      | variableDeclaration name declared b =>
          simp only [statementShape, Bool.and_eq_true] at hs
          simp only [lowerList, lowerOpcode, statementListReturns]
          cases b <;> exact hn hs.2
      | returnStatement => rfl
      | program => simp at hs
      | _ =>
          simp only [statementShape, Bool.and_eq_true] at hs
          exact hn hs.2
  | two kind a b n _ _ hn =>
      intro hs
      simp only [statementShape, Bool.and_eq_true] at hs
      cases kind <;> exact hn hs.2
  | ifStatement c t e n _ ht he hn =>
      intro hs
      simp only [statementShape, Bool.and_eq_true] at hs
      simp only [lowerList, hirReturns, statementListReturns, ht hs.1.1.2, he hs.1.2, hn hs.2]
      -- A missing `else` returns nothing anyway.
      by_cases hnull : e = .null
      · subst hnull
        simp
      · have hbne : (e != .null) = true := bne_iff_ne.mpr hnull
        rw [hbne, Bool.true_and]

/-- What holds of the checked list `n'`, under the return type the checker expected. -/
structure ReturnsChecked (expected : TypeKind) (n' : AstNode) : Prop where
  valued : expected ≠ .void → valuedReturns (lowerList n') = true
  functions : ∀ f ∈ n'.functions, f.1.isTyped = true →
    hirReturns (lowerList f.2) = true ∧ valuedReturns (lowerList f.2) = true

theorem head_bne_nil (e : AstNode) : ((lowerList e).head != .nil) = (e != .null) := by
  cases e with
  | null => rfl
  | leaf kind n => rfl
  | one kind a n => rfl
  | two kind a b n => cases kind <;> rfl
  | ifStatement c t e n => rfl

/-- One induction over the checker's own recursion. -/
theorem returnsChecked_of_ok (n : AstNode) : ∀ {tc : TypeChecker} {r : TypeChecker × AstNode},
    checkStatements n tc = .ok r → statementShape n = true → ReturnsChecked tc.expectedReturn r.2 := by
  induction n with
  | null =>
      intro tc r h _
      cases h
      exact ⟨fun _ => rfl, fun f hf => by cases hf⟩
  | leaf kind n hn =>
      intro tc r h hs
      rw [statementShape, Bool.and_eq_true] at hs
      simp only [checkStatements, bind_eq_ok, pure_eq_ok] at h
      obtain ⟨_, -, r', hr, rfl⟩ := h
      obtain ⟨hval, hfun⟩ := hn hr hs.2
      exact ⟨hval, hfun⟩
  | one kind child n hc hn =>
      intro tc r h hs
      cases kind with
      | variableDeclaration name declared b =>
          simp only [statementShape, Bool.and_eq_true] at hs
          simp only [checkStatements, bind_eq_ok, pure_eq_ok] at h
          obtain ⟨t, -, tc₁, hd, r', hr, rfl⟩ := h
          obtain ⟨hval, hfun⟩ := hn hr hs.2
          have hexp : (tc₁.logSymbol name).expectedReturn = tc.expectedReturn := by
            have hsame := sameContext_checkDeclaration hd
            show tc₁.expectedReturn = _
            rw [hsame]
            rfl
          refine ⟨fun hne => ?_, hfun⟩
          have := hval (hexp ▸ hne)
          simp only [lowerList, lowerOpcode]
          split <;> exact this
      | printStatement =>
          simp only [statementShape, Bool.and_eq_true] at hs
          simp only [checkStatements, bind_eq_ok, pure_eq_ok] at h
          obtain ⟨t, -, -, -, r', hr, rfl⟩ := h
          obtain ⟨hval, hfun⟩ := hn hr hs.2
          exact ⟨hval, hfun⟩
      | returnStatement =>
          simp only [statementShape, Bool.and_eq_true] at hs
          simp only [checkStatements, bind_eq_ok, pure_eq_ok] at h
          obtain ⟨_, -, t, -, _, hret, r', hr, rfl⟩ := h
          obtain ⟨hval, hfun⟩ := hn hr hs.2
          refine ⟨fun hne => ?_, hfun⟩
          show ((lowerList (resolveCalls tc child)).head != .nil && valuedReturns (lowerList r'.2)) = true
          rw [head_bne_nil, hval hne, Bool.and_true, bne_iff_ne, ne_eq, resolveCalls_eq_null]
          -- Without a value, `checkReturn` would have failed.
          rintro rfl
          unfold checkReturn at hret
          rw [if_neg hne] at hret
          exact absurd hret throw_ne_ok
      | functionCall name =>
          simp only [statementShape, Bool.and_eq_true] at hs
          simp only [checkStatements, bind_eq_ok, pure_eq_ok] at h
          obtain ⟨t, -, r', hr, rfl⟩ := h
          obtain ⟨hval, hfun⟩ := hn hr hs.2
          exact ⟨hval, hfun⟩
      | unsafeBlock =>
          simp only [statementShape, Bool.and_eq_true] at hs
          simp only [checkStatements, bind_eq_ok, pure_eq_ok] at h
          obtain ⟨inner, hb, r', hr, rfl⟩ := h
          obtain ⟨hval, hfun⟩ := hn hr hs.2
          obtain ⟨hvalb, hfunb⟩ := hc hb hs.1
          refine ⟨fun hne => ?_, fun f hf ht => ?_⟩
          · show (valuedReturns (lowerList inner.2) && valuedReturns (lowerList r'.2)) = true
            rw [hvalb hne, hval hne]
            rfl
          · rcases List.mem_append.mp hf with hf | hf
            · exact hfunb f hf ht
            · exact hfun f hf ht
      | functionDeclaration header =>
          simp only [statementShape, Bool.and_eq_true] at hs
          simp only [checkStatements, bind_eq_ok, pure_eq_ok, failIf_eq_ok] at h
          obtain ⟨-, hdecl, tc₂, hp, inner, hb, -, hlist, r', hr, rfl⟩ := h
          obtain ⟨hval, hfun⟩ := hn hr hs.2
          obtain ⟨hvalb, hfunb⟩ := hc hb hs.1
          have hexp : tc₂.expectedReturn = (enterFunction tc header).expectedReturn := by
            rw [sameContext_declareParameters hp]
          refine ⟨fun hne => hval hne, fun f hf ht => ?_⟩
          simp only [AstNode.functions, List.mem_cons, List.mem_append] at hf
          rcases hf with rfl | hf | hf
          · -- The function itself: its type is known and not `void`.
            have htyped : (enterFunction tc header).expectedReturn ≠ .unknown ∧
                (enterFunction tc header).expectedReturn ≠ .void := by
              unfold FunctionHeader.isTyped at ht
              unfold enterFunction
              cases hty : header.returnType with
              | none => simp [hty] at ht
              | some t =>
                  simp only [hty, bne_iff_ne, ne_eq, Option.map_some, Option.getD_some] at ht ⊢
                  refine ⟨?_, ht⟩
                  unfold typeFromName
                  simp only [List.lookup_cons, List.lookup_nil]
                  repeat' split
                  all_goals simp
            have hrule : statementListReturns child = true := by
              by_contra hno
              exact hlist ⟨htyped.1, htyped.2, hno⟩
            have hck := checked_of_ok child hb
            refine ⟨?_, hvalb (hexp ▸ htyped.2)⟩
            rw [hirReturns_lowerList _ (hck.shape.trans hs.1), statementListReturns_checked hck, hrule]
          · exact hfunb f hf ht
          · exact hfun f hf ht
      | _ => simp at hs
  | two kind a b n ha hb hn =>
      intro tc r h hs
      cases kind with
      | assignment =>
          simp only [statementShape, Bool.and_eq_true] at hs
          simp only [checkStatements, bind_eq_ok, pure_eq_ok] at h
          obtain ⟨t, -, v, -, -, -, r', hr, rfl⟩ := h
          obtain ⟨hval, hfun⟩ := hn hr hs.2
          exact ⟨hval, hfun⟩
      | whileStatement =>
          simp only [statementShape, Bool.and_eq_true] at hs
          simp only [checkStatements, bind_eq_ok, pure_eq_ok] at h
          obtain ⟨t, -, -, -, inner, hi, r', hr, rfl⟩ := h
          obtain ⟨hval, hfun⟩ := hn hr hs.2
          obtain ⟨hvalb, hfunb⟩ := hb hi hs.1.2
          refine ⟨fun hne => ?_, fun f hf ht => ?_⟩
          · show (valuedReturns (lowerList inner.2) && valuedReturns (lowerList r'.2)) = true
            rw [hvalb hne, hval hne]
            rfl
          · rcases List.mem_append.mp hf with hf | hf
            · exact hfunb f hf ht
            · exact hfun f hf ht
      | _ => simp at hs
  | ifStatement c t e n hc ht he hn =>
      intro tc r h hs
      simp only [statementShape, Bool.and_eq_true] at hs
      simp only [checkStatements, bind_eq_ok, pure_eq_ok] at h
      obtain ⟨ty, -, -, -, first, hf, second, hsec, r', hr, rfl⟩ := h
      obtain ⟨hval, hfun⟩ := hn hr hs.2
      obtain ⟨hvalt, hfunt⟩ := ht hf hs.1.1.2
      obtain ⟨hvale, hfune⟩ := he hsec hs.1.2
      refine ⟨fun hne => ?_, fun f hf ht => ?_⟩
      · show (valuedReturns (lowerList first.2) && valuedReturns (lowerList second.2) &&
          valuedReturns (lowerList r'.2)) = true
        rw [hvalt hne, hvale hne, hval hne]
        rfl
      · simp only [AstNode.functions, List.mem_append] at hf
        rcases hf with hf | hf | hf
        · exact hfunt f hf ht
        · exact hfune f hf ht
        · exact hfun f hf ht

/-! ## Functions in the order of the arena -/

theorem functionNodes_head {h : Hir} (hh : h.functionNodes = []) : h.head.functionNodes = [] := by
  cases h with
  | nil => rfl
  | leaf i op n => rfl
  | one i op a n => cases op <;> simp_all [Hir.head]
  | two i op a b n => simp_all [Hir.head]
  | ifNode i c t e n => simp_all [Hir.head]

theorem functionNodes_expression (e : AstNode) (hs : expressionShape e = true) :
    (lowerList e).functionNodes = [] := by
  induction e with
  | null => rfl
  | leaf kind n hn =>
      rw [expressionShape, Bool.and_eq_true] at hs
      exact hn hs.2
  | one kind a n ha hn =>
      simp only [expressionShape, Bool.and_eq_true] at hs
      have hcut := functionNodes_head (ha hs.1.2)
      cases kind <;>
        first
          | exact absurd hs.1.1 Bool.false_ne_true
          | simp [ha hs.1.2, hn hs.2, hcut]
  | two kind a b n ha hb hn =>
      simp only [expressionShape, Bool.and_eq_true] at hs
      have hcuta := functionNodes_head (ha hs.1.1.2)
      have hcutb := functionNodes_head (hb hs.1.2)
      cases kind <;>
        first
          | exact absurd hs.1.1.1 Bool.false_ne_true
          | simp [hn hs.2, hcuta, hcutb]
  | ifStatement c t e n _ _ _ _ => cases hs

theorem functionNodes_operand {e : AstNode} (hs : operandShape e = true) : (lowerList e).head.functionNodes = [] := by
  rw [operandShape, Bool.and_eq_true] at hs
  exact functionNodes_head (functionNodes_expression e hs.2)

/-- The `FUNCTION` nodes are the declarations, in source order. -/
theorem functionNodes_lowerList (n : AstNode) (hs : statementShape n = true) :
    (lowerList n).functionNodes.map FunctionNode.body = n.functions.map fun f => lowerList f.2 := by
  induction n with
  | null => rfl
  | leaf kind n hn =>
      rw [statementShape, Bool.and_eq_true] at hs
      exact hn hs.2
  | one kind child n hc hn =>
      cases kind with
      | functionDeclaration header =>
          simp only [statementShape, Bool.and_eq_true] at hs
          simp [hc hs.1, hn hs.2]
      | unsafeBlock =>
          simp only [statementShape, Bool.and_eq_true] at hs
          simp [hc hs.1, hn hs.2]
      | printStatement =>
          simp only [statementShape, Bool.and_eq_true] at hs
          simp [functionNodes_operand hs.1, hn hs.2]
      | variableDeclaration name declared b =>
          simp only [statementShape, Bool.and_eq_true] at hs
          cases b <;>
          simp [functionNodes_operand hs.1, hn hs.2]
      | functionCall name =>
          simp only [statementShape, Bool.and_eq_true] at hs
          simp [functionNodes_expression child hs.1, hn hs.2]
      | returnStatement =>
          simp only [statementShape, Bool.and_eq_true] at hs
          have hcut : (lowerList child).head.functionNodes = [] := by
            simp only [Bool.or_eq_true, beq_iff_eq] at hs
            rcases hs.1 with rfl | hs'
            · rfl
            · exact functionNodes_operand hs'
          simp [hcut, hn hs.2]
      | _ => simp at hs
  | two kind a b n ha hb hn =>
      cases kind with
      | whileStatement =>
          simp only [statementShape, Bool.and_eq_true] at hs
          simp [functionNodes_operand hs.1.1, hb hs.1.2, hn hs.2]
      | assignment =>
          simp only [statementShape, Bool.and_eq_true] at hs
          simp [functionNodes_operand hs.1.1, functionNodes_operand hs.1.2, hn hs.2]
      | _ => simp at hs
  | ifStatement c t e n _ ht he hn =>
      simp only [statementShape, Bool.and_eq_true] at hs
      simp [functionNodes_operand hs.1.1.1, ht hs.1.1.2, he hs.1.2, hn hs.2]

theorem functionNodes_outline (h : Hir) :
    h.outline.functionNodes.map FunctionNode.body = h.functionNodes.map fun f => f.body.outline := by
  induction h with
  | nil => rfl
  | leaf i op n hn => simp [hn]
  | one i op a n ha hn => cases op <;> simp [HirOne.outline, ha, hn]
  | two i op a b n ha hb hn => simp [ha, hb, hn]
  | ifNode i c t e n hc ht he hn => simp [hc, ht, he, hn]

theorem positions_skeleton (h : Hir) :
    h.skeleton.functionNodes.map FunctionNode.position = h.functionNodes.map FunctionNode.position := by
  induction h with
  | nil => rfl
  | leaf i op n hn => simp [hn]
  | one i op a n ha hn => cases op <;> simp [HirOne.outline, ha, hn]
  | two i op a b n ha hb hn => simp [ha, hb, hn]
  | ifNode i c t e n hc ht he hn => simp [hc, ht, he, hn]

/-- Positions handed out in visiting order: all in the range of the subtree, and increasing. -/
def InOrder (ps : List Nat) (low high : Nat) : Prop := ps.Pairwise (· ≤ ·) ∧ ∀ p ∈ ps, low ≤ p ∧ p < high

theorem InOrder.append {ps qs : List Nat} {low mid high : Nat} (hp : InOrder ps low mid) (hq : InOrder qs mid high)
    (hlow : low ≤ mid) (hhigh : mid ≤ high) : InOrder (ps ++ qs) low high := by
  refine ⟨List.pairwise_append.mpr ⟨hp.1, hq.1, fun p hpm q hqm => ?_⟩, fun p hpm => ?_⟩
  · have h₁ := (hp.2 p hpm).2
    have h₂ := (hq.2 q hqm).1
    omega
  · rcases List.mem_append.mp hpm with hpm | hpm
    · have := hp.2 p hpm
      omega
    · have := hq.2 p hpm
      omega

theorem InOrder.cons {ps : List Nat} {low high : Nat} (hp : InOrder ps (low + 1) high) (hlt : low < high) :
    InOrder (low :: ps) low high := by
  refine ⟨List.pairwise_cons.mpr ⟨fun p hpm => ?_, hp.1⟩, fun p hpm => ?_⟩
  · have := (hp.2 p hpm).1
    omega
  · rcases List.mem_cons.mp hpm with rfl | hpm
    · omega
    · have := hp.2 p hpm
      omega

theorem InOrder.widen {ps : List Nat} {low low' high : Nat} (hp : InOrder ps low' high) (h : low ≤ low') :
    InOrder ps low high :=
  ⟨hp.1, fun p hpm => ⟨Nat.le_trans h (hp.2 p hpm).1, (hp.2 p hpm).2⟩⟩

theorem inOrder_number (h : Hir) : ∀ k,
    InOrder ((h.number k).functionNodes.map FunctionNode.position) k (k + h.size) := by
  induction h with
  | nil => intro k; exact ⟨List.Pairwise.nil, fun p hp => by cases hp⟩
  | leaf i op n hn =>
      intro k
      have := (hn (k + 1)).widen (Nat.le_succ k)
      rwa [Nat.add_assoc, Nat.add_comm 1] at this
  | one i op a n ha hn =>
      intro k
      have hsize : k + 1 + a.size + n.size = k + (a.size + n.size + 1) := by omega
      have hrest := (ha (k + 1)).append (hn (k + 1 + a.size)) (by omega) (by omega)
      rw [hsize] at hrest
      simp only [Hir.size, Hir.number]
      cases op with
      | function f names =>
          simp only [Hir.functionNodes, List.map_cons, List.map_append]
          exact hrest.cons (by omega)
      | _ =>
          simp only [Hir.functionNodes, List.map_append]
          exact hrest.widen (Nat.le_succ k)
  | two i op a b n ha hb hn =>
      intro k
      have hsize : k + 1 + a.size + b.size + n.size = k + (a.size + b.size + n.size + 1) := by omega
      have hrest := (ha (k + 1)).append
        ((hb (k + 1 + a.size)).append (hn (k + 1 + a.size + b.size)) (by omega) (by omega)) (by omega) (by omega)
      rw [hsize] at hrest
      simp only [Hir.size, Hir.number, Hir.functionNodes, List.map_append]
      exact hrest.widen (Nat.le_succ k)
  | ifNode i c t e n hc ht he hn =>
      intro k
      have hsize : k + 1 + c.size + t.size + e.size + n.size = k + (c.size + t.size + e.size + n.size + 1) := by
        omega
      have hrest := (hc (k + 1)).append
        ((ht (k + 1 + c.size)).append
          ((he (k + 1 + c.size + t.size)).append (hn (k + 1 + c.size + t.size + e.size)) (by omega) (by omega))
          (by omega) (by omega)) (by omega) (by omega)
      rw [hsize] at hrest
      simp only [Hir.size, Hir.number, Hir.functionNodes, List.map_append]
      exact hrest.widen (Nat.le_succ k)

/-- In a lowered program the arena meets the functions in source order. -/
theorem arenaFunctions_lowered {statements next : AstNode} {ir : Hir} (hs : statementShape statements = true)
    (h : vntIrLower (.one .program statements next) = some ir) {i : Nat} {f : FunctionHeader × AstNode}
    (hf : statements.functions[i]? = some f) :
    ∃ g, ir.arenaFunctions[i]? = some g ∧ g.body.outline = (lowerList f.2).outline := by
  obtain ⟨a, hskel, rfl, -⟩ := vntIrLower_skeleton h
  have hsorted : (Hir.one 0 .program a .nil).arenaFunctions = a.functionNodes := by
    have hpos : a.functionNodes.map FunctionNode.position =
        ((lowerList statements).number 1).functionNodes.map FunctionNode.position := by
      rw [← positions_skeleton, hskel, positions_skeleton]
    have horder := (inOrder_number (lowerList statements) 1).1
    rw [← hpos, List.pairwise_map] at horder
    unfold Hir.arenaFunctions
    rw [show (Hir.one 0 .program a .nil).functionNodes = a.functionNodes by
      rw [Hir.functionNodes, Hir.functionNodes, List.append_nil]
      simp]
    exact List.Pairwise.insertionSort_eq horder
  have hbodies : a.functionNodes.map (fun g => g.body.outline) =
      statements.functions.map fun f => (lowerList f.2).outline := by
    have houtline : a.outline = (lowerList statements).outline := by
      rw [← Hir.outline_skeleton, hskel, Hir.outline_skeleton, Hir.outline_number]
    calc a.functionNodes.map (fun g => g.body.outline)
        = a.outline.functionNodes.map FunctionNode.body := (functionNodes_outline a).symm
      _ = (lowerList statements).functionNodes.map (fun g => g.body.outline) := by
          rw [houtline, functionNodes_outline]
      _ = ((lowerList statements).functionNodes.map FunctionNode.body).map Hir.outline := by
          rw [List.map_map]
          rfl
      _ = statements.functions.map fun f => (lowerList f.2).outline := by
          rw [functionNodes_lowerList statements hs, List.map_map]
          rfl
  have hat := congrArg (·[i]?) hbodies
  simp only [List.getElem?_map, hf, Option.map_some, Option.map_eq_some_iff] at hat
  obtain ⟨g, hg, hbody⟩ := hat
  exact ⟨g, by rw [hsorted]; exact hg, hbody⟩

/-! ## The theorem -/

/-- **No path of a typed function falls off its end.** In the graph of the lowered program, every path from the
    entry of a function with an explicit return type other than `void` to the exit block goes through a
    `RETURN` block with a value; and under no host and from no state does its body end without a return. The
    function declared at place `i` is the one of entry `i + 1`. -/
theorem typedFunction_returns (ast ast' : AstNode) (ir : Hir) (cfg : VntCfg) (hs : programShape ast = true)
    (hcheck : vntTypecheck ast = .ok ast') (hlower : vntIrLower ast' = some ir)
    (hcfg : vntCfgBuild ir = some cfg) (i : Nat) (f : FunctionHeader × AstNode)
    (hf : (programFunctions ast')[i]? = some f) (htyped : f.1.isTyped = true) :
    ∃ g e, ir.arenaFunctions[i]? = some g ∧ g.body.outline = (lowerList f.2).outline ∧
      cfg.entries[i + 1]? = some e ∧
      (∀ before, Trail cfg.blocks e before cfg.exitBlock →
        ∃ p ∈ before, ∃ block, cfg.blocks[p]? = some block ∧ block.ReturnsValue) ∧
      ∀ (H V : Type) (ctx : Ctx H V) (s s' : State H V), runSeq (execs ctx g.body) s ≠ .ok .normal s' := by
  unfold vntTypecheck at hcheck
  split at hcheck
  · rename_i statements next
    obtain ⟨⟨tc', statements'⟩, hr, hp⟩ := bind_eq_ok.mp hcheck
    obtain ⟨tc, -, hst⟩ := bind_eq_ok.mp hr
    cases hp
    have hshape : statementShape statements = true := by
      cases next with
      | null => exact hs
      | _ => cases hs
    have hshape' : statementShape statements' = true := (checked_of_ok statements hst).shape.trans hshape
    obtain ⟨g, hg, hbody⟩ := arenaFunctions_lowered hshape' hlower hf
    obtain ⟨hret, hval⟩ := (returnsChecked_of_ok statements hst hshape).functions f (List.mem_of_getElem? hf) htyped
    rw [← hirReturns_outline, ← hbody, hirReturns_outline] at hret
    rw [← valuedReturns_outline, ← hbody, valuedReturns_outline] at hval
    have hat : ir.bodies[i + 1]? = some g.body := by
      rw [Hir.bodies, List.getElem?_cons_succ, List.getElem?_map, hg]
      rfl
    have hlt : i + 1 < cfg.entries.length := by
      rw [(simulates_of_build hcfg).1]
      exact (List.getElem?_eq_some_iff.mp hat).1
    have hentry := List.getElem?_eq_getElem hlt
    exact ⟨g, _, hg, hbody, hentry, fun before ht => trail_returns hcfg hat hentry hret hval ht,
      fun H V ctx s s' => runSeq_ne_normal ctx g.body hret s s'⟩
  · exact absurd hcheck throw_ne_ok

/-- `fun sign(n: int) -> int { while n > 9 { break } if n < 0 { return 0 } else { unsafe { return 1 } } }` -/
def signFunction : AstNode :=
  .one .program
    (.one (.functionDeclaration ⟨"sign", [("n", some "int")], some "int", false⟩)
      (.two .whileStatement
        (.two (.binaryExpression .greater) (.leaf (.variable "n") .null) (.leaf (.integerLiteral 9) .null) .null)
        (.leaf .breakStatement .null)
        (.ifStatement
          (.two (.binaryExpression .less) (.leaf (.variable "n") .null) (.leaf (.integerLiteral 0) .null) .null)
          (.one .returnStatement (.leaf (.integerLiteral 0) .null) .null)
          (.one .unsafeBlock (.one .returnStatement (.leaf (.integerLiteral 1) .null) .null) .null)
          .null))
      .null)
    .null

/-- Its checked tree, its HIR and its graph. -/
def signChecked : AstNode := (vntTypecheck signFunction).toOption.getD .null
def signIr : Hir := (vntIrLower signChecked).getD .nil
def signCfg : VntCfg := (vntCfgBuild signIr).getD ⟨[], [], 0⟩

theorem signFunction_returns : ∃ f g e, (programFunctions signChecked)[0]? = some f ∧ f.1.isTyped = true ∧
    signIr.arenaFunctions[0]? = some g ∧ signCfg.entries[1]? = some e ∧
    ∀ before, Trail signCfg.blocks e before signCfg.exitBlock →
      ∃ p ∈ before, ∃ block, signCfg.blocks[p]? = some block ∧ block.ReturnsValue := by
  have hcheck : vntTypecheck signFunction = .ok signChecked := by decide +kernel
  have hf : (programFunctions signChecked)[0]? =
      some (⟨"sign", [("n", some "int")], some "int", false⟩, (signChecked.functions.head?.map (·.2)).getD
        ((programFunctions signChecked).head?.map (·.2) |>.getD .null)) := by decide +kernel
  obtain ⟨g, e, hg, -, he, hall, -⟩ := typedFunction_returns signFunction signChecked signIr signCfg (by decide +kernel)
    hcheck (by decide +kernel) (by decide +kernel) 0 _ hf (by decide +kernel)
  exact ⟨_, g, e, hf, by decide +kernel, hg, he, hall⟩

end Vnt
