import Vnt.Arena.ResolveRoot
import Vnt.Compile.Scoped
import Vnt.Ir.ReadBack

/-!
# `Compile.ReadBack` — lowering is total on accepted programs

Every program the parser can build and the checker accepts is lowered: the array is written, every occurrence is
found on the resolver's stack, and the validator accepts what comes out.
-/

namespace Vnt

/-! ## Shapes -/

theorem length_lowerList (n : AstNode) : (lowerList n).length = n.length := by
  induction n with
  | null => rfl
  | leaf kind n hn => exact congrArg (· + 1) hn
  | one kind a n _ hn => exact congrArg (· + 1) hn
  | two kind a b n _ _ hn => cases kind <;> exact congrArg (· + 1) hn
  | ifStatement c t e n _ _ _ hn => exact congrArg (· + 1) hn

theorem validateNodeShape_expression (e : AstNode) (hs : expressionShape e = true) :
    validateNodeShape (lowerList e) = true := by
  induction e with
  | null => rfl
  | leaf kind n hn =>
      simp only [expressionShape, Bool.and_eq_true] at hs
      exact hn hs.2
  | one kind a n ha hn =>
      simp only [expressionShape, Bool.and_eq_true] at hs
      cases kind with
      | functionCall name | arrayLiteral =>
          simp [validateNodeShape, ha hs.1.2, hn hs.2]
      | memberExpression _ | unaryExpression _ =>
          have hlen : a.length = 1 := beq_iff_eq.mp hs.1.1
          simp [validateNodeShape, lowerList_head (Nat.le_of_eq hlen), length_lowerList, hlen, ha hs.1.2, hn hs.2]
      | _ => simp at hs
  | two kind a b n ha hb hn =>
      simp only [expressionShape, Bool.and_eq_true] at hs
      cases kind with
      | indexExpression | binaryExpression _ =>
          have hlen := hs.1.1.1
          simp only [Bool.and_eq_true, beq_iff_eq] at hlen
          simp [validateNodeShape, lowerList_head (Nat.le_of_eq hlen.1),
            lowerList_head (Nat.le_of_eq hlen.2), length_lowerList, hlen, ha hs.1.1.2, hb hs.1.2, hn hs.2]
      | _ => simp at hs
  | ifStatement c t e n _ _ _ _ => simp at hs

/-- An operand is lowered to one node. -/
theorem validateNodeShape_operand {e : AstNode} (hs : operandShape e = true) :
    (lowerList e).head = lowerList e ∧ (lowerList e).length = 1 ∧ validateNodeShape (lowerList e) = true := by
  simp only [operandShape, Bool.and_eq_true, beq_iff_eq] at hs
  refine ⟨lowerList_head (Nat.le_of_eq hs.1), ?_, validateNodeShape_expression e hs.2⟩
  rw [length_lowerList, hs.1]

/-- **What the parser builds is lowered to a tree of the validator's shape.** -/
theorem validateNodeShape_lowerList (n : AstNode) (hs : statementShape n = true) :
    validateNodeShape (lowerList n) = true := by
  induction n with
  | null => rfl
  | leaf kind n hn =>
      simp only [statementShape, Bool.and_eq_true] at hs
      exact hn hs.2
  | one kind a n ha hn =>
      simp only [statementShape, Bool.and_eq_true] at hs
      cases kind with
      | printStatement =>
          obtain ⟨hhead, hlen, hshape⟩ := validateNodeShape_operand hs.1
          simp [validateNodeShape, hhead, hlen, hshape, hn hs.2]
      | variableDeclaration x t isReassignment =>
          obtain ⟨hhead, hlen, hshape⟩ := validateNodeShape_operand hs.1
          cases isReassignment <;>
            simp [validateNodeShape, hhead, hlen, hshape, hn hs.2]
      | functionCall name =>
          simp [validateNodeShape, validateNodeShape_expression a hs.1, hn hs.2]
      | returnStatement =>
          have hone := hs.1
          rw [Bool.or_eq_true, beq_iff_eq] at hone
          rcases hone with rfl | hone
          · simp [validateNodeShape, Hir.head, hn hs.2]
          · obtain ⟨hhead, hlen, hshape⟩ := validateNodeShape_operand hone
            simp [validateNodeShape, hhead, hlen, hshape, hn hs.2]
      | functionDeclaration h | unsafeBlock =>
          simp [validateNodeShape, ha hs.1, hn hs.2]
      | _ => simp at hs
  | two kind a b n _ hb hn =>
      simp only [statementShape, Bool.and_eq_true] at hs
      cases kind with
      | whileStatement =>
          simp only [Bool.and_eq_true] at hs
          obtain ⟨hhead, hlen, hshape⟩ := validateNodeShape_operand hs.1.1
          simp [validateNodeShape, hhead, hlen, hshape, hb hs.1.2, hn hs.2]
      | assignment =>
          simp only [Bool.and_eq_true] at hs
          obtain ⟨hhead, hlen, hshape⟩ := validateNodeShape_operand hs.1.1
          obtain ⟨hhead', hlen', hshape'⟩ := validateNodeShape_operand hs.1.2
          simp [validateNodeShape, hhead, hlen, hshape, hhead', hlen', hshape', hn hs.2]
      | _ => simp at hs
  | ifStatement c t e n _ ht he hn =>
      simp only [statementShape, Bool.and_eq_true] at hs
      obtain ⟨hhead, hlen, hshape⟩ := validateNodeShape_operand hs.1.1.1
      simp [validateNodeShape, hhead, hlen, hshape, ht hs.1.1.2, he hs.1.2, hn hs.2]

theorem length_number (h : Hir) : ∀ k, (h.number k).length = h.length := by
  induction h <;> simp_all [Hir.length]

theorem validateNodeShape_number (h : Hir) : ∀ k, validateNodeShape (h.number k) = validateNodeShape h := by
  induction h <;> simp_all [validateNodeShape, length_number]

theorem length_skeleton (h : Hir) : h.skeleton.length = h.length := by
  induction h <;> simp_all [Hir.length]

/-- The shape does not see names. -/
theorem validateNodeShape_skeleton (h : Hir) : validateNodeShape h.skeleton = validateNodeShape h := by
  induction h with
  | nil => rfl
  | leaf i op n hn => simp_all [validateNodeShape]
  | one i op a n ha hn => cases op <;> simp_all [HirOne.outline, validateNodeShape, length_skeleton]
  | two i op a b n ha hb hn => cases op <;> simp_all [validateNodeShape, length_skeleton]
  | ifNode i c t e n hc ht he hn => simp_all [validateNodeShape, length_skeleton]

/-! ## Totality -/

/-- What lowering the statements gives: the array, and the tree that it spells. -/
structure LoweredTo (fuel : Nat) (statements next : AstNode) (nodes : List Arena.VntIrNode) (h : Hir) : Prop where
  run : Arena.vntIrLower fuel (.one .program statements next) = .ok (some ⟨nodes, 0⟩)
  tree : resolveHirSymbols (loweredProgram statements) = some h
  spells : Arena.Spells nodes .root h none
  wellFormed : Arena.WellFormed ⟨nodes, 0⟩
  length : nodes.length = (lowerList statements).size + 1

/-- **Lowering is total**: where every occurrence is in scope, `vnt_ir_lower` returns an array the validator accepts,
    and it is the array of the tree. -/
theorem vntIrLower_total {fuel : Nat} {statements next : AstNode} {log : List (String × Nat)} {s : Scope}
    (hs : statementShape statements = true) (hwalk : walk false (lowerList statements) ⟨[], 0⟩ = some (log, s))
    (hfuel : 3 * (lowerList statements).size + 1 < fuel) : ∃ nodes h, LoweredTo fuel statements next nodes h := by
  obtain ⟨nodes, hlower, hspells, hsize⟩ := Arena.lowerProgram_spells statements
  have hprogram : loweredProgram statements = .one 0 .program ((lowerList statements).number 1) .nil := rfl
  have hshape := validateNodeShape_lowerList statements hs
  have hpositions : Arena.positions (loweredProgram statements) = List.range nodes.length := by
    rw [loweredProgram, Arena.positions_number, hsize, List.range_eq_range']
    rfl
  have hres : Arena.Resolvable nodes .root (.one 0 .program ((lowerList statements).number 1) .nil) none := by
    refine ⟨hspells, ?_, ?_⟩
    · rw [← hprogram, hpositions]
      exact List.nodup_range
    · simp [validateNodeShape, validateNodeShape_number, hshape]
  obtain ⟨p, htree, hp⟩ := @resolveHirSymbols_total 0 ((lowerList statements).number 1) .nil log s
    (by rw [walk_number]; exact hwalk)
  have hroom : 3 * ((lowerList statements).number 1).size < fuel := by
    rw [Arena.size_number]
    omega
  obtain ⟨nodes', hrun, hlen, hspelled⟩ := (Arena.resolveHirSymbols_spells hres hroom htree).run
  -- resolution keeps the shape and moves no node
  have hskeleton : (Hir.one 0 .program p.1 .nil).skeleton = (loweredProgram statements).skeleton := by
    rw [hprogram]
    simp only [Hir.skeleton, skeleton_resolveTop _ _ hp]
  have hvalid : vntIrValidate (.one 0 .program p.1 .nil) = true := by
    show validateNodeShape p.1 = true
    rw [← validateNodeShape_skeleton, skeleton_resolveTop _ _ hp, validateNodeShape_skeleton, validateNodeShape_number,
      hshape]
  have hall : Arena.positions (.one 0 .program p.1 .nil) = List.range nodes'.length := by
    rw [Arena.positions_of_skeleton hskeleton, hpositions, hlen]
  have hwell : Arena.WellFormed ⟨nodes', 0⟩ := hspelled.wellFormed hvalid rfl hall
  have hvalidate : Arena.vntIrValidate fuel ⟨nodes', 0⟩ = .ok true := by
    obtain ⟨b, hb, hiff⟩ := Arena.vntIrValidate_fuel ⟨nodes', 0⟩ fuel (by show nodes'.length < fuel; omega)
    rw [hb, hiff.mpr hwell]
  refine ⟨nodes', .one 0 .program p.1 .nil, ?_, htree, hspelled, hwell, hlen.trans hsize⟩
  rw [Arena.vntIrLower, Arena.andThen_ok hlower]
  show Arena.andThen (Arena.resolveHirSymbols fuel ⟨nodes, 0⟩) _ = _
  rw [Arena.andThen_ok hrun]
  show (Arena.vntIrValidate fuel ⟨nodes', 0⟩ >>= _) = _
  rw [hvalidate]
  rfl

/-!
## Lowering keeps the program

Every accepted program is lowered to an array that spells one tree, and the tree reads back to the program: each node
under its opcode, its children in order under their roles, its variables under keys that hold their names.
-/

/-! ## Lowering keeps every node -/

theorem read_expression (e : AstNode) (hs : expressionShape e = true) : (lowerList e).read id = e.bare := by
  induction e with
  | null => rfl
  | leaf kind n hn =>
      simp only [expressionShape, Bool.and_eq_true] at hs
      cases kind <;> simp only [lowerList, lowerLeaf, Hir.read, readLeaf, AstNode.bare, hn hs.2, id]
  | one kind a n ha hn =>
      simp only [expressionShape, Bool.and_eq_true] at hs
      cases kind with
      | functionCall name | arrayLiteral =>
          simp only [lowerList, lowerOpcode, AstOne.isList, if_true, Hir.read, readOne, AstNode.bare, AstOne.bare,
            ha hs.1.2, hn hs.2]
      | memberExpression _ | unaryExpression _ =>
          have hlen : a.length = 1 := beq_iff_eq.mp hs.1.1
          simp only [lowerList, lowerOpcode, AstOne.isList, Bool.false_eq_true, if_false, Hir.read, readOne, AstNode.bare,
            AstOne.bare, lowerList_head (Nat.le_of_eq hlen), ha hs.1.2, hn hs.2]
      | _ => simp at hs
  | two kind a b n ha hb hn =>
      simp only [expressionShape, Bool.and_eq_true] at hs
      cases kind with
      | indexExpression | binaryExpression _ =>
          have hlen := hs.1.1.1
          simp only [Bool.and_eq_true, beq_iff_eq] at hlen
          simp only [lowerList, lowerTwo, Hir.read, readTwo, AstNode.bare, lowerList_head (Nat.le_of_eq hlen.1),
            lowerList_head (Nat.le_of_eq hlen.2), ha hs.1.1.2, hb hs.1.2, hn hs.2]
      | _ => simp at hs
  | ifStatement c t e n _ _ _ _ => simp at hs

theorem read_operand {e : AstNode} (hs : operandShape e = true) : (lowerList e).head.read id = e.bare := by
  simp only [operandShape, Bool.and_eq_true, beq_iff_eq] at hs
  rw [lowerList_head (Nat.le_of_eq hs.1), read_expression e hs.2]

/-- **What is lowered reads back**, but for the types and marks in the headers of functions. -/
theorem read_lowerList (n : AstNode) (hs : statementShape n = true) : (lowerList n).read id = n.bare := by
  induction n with
  | null => rfl
  | leaf kind n hn =>
      simp only [statementShape, Bool.and_eq_true] at hs
      cases kind <;> simp only [lowerList, lowerLeaf, Hir.read, readLeaf, AstNode.bare, hn hs.2, id]
  | one kind a n ha hn =>
      simp only [statementShape, Bool.and_eq_true] at hs
      cases kind with
      | printStatement =>
          simp only [lowerList, lowerOpcode, AstOne.isList, Bool.false_eq_true, if_false, Hir.read, readOne, AstNode.bare,
            AstOne.bare, read_operand hs.1, hn hs.2]
      | variableDeclaration x t isReassignment =>
          cases isReassignment <;>
            simp only [lowerList, lowerOpcode, AstOne.isList, Bool.false_eq_true, if_false, if_true, Hir.read, readOne,
              AstNode.bare, AstOne.bare, read_operand hs.1, hn hs.2, id]
      | functionCall name =>
          simp only [lowerList, lowerOpcode, AstOne.isList, if_true, Hir.read, readOne, AstNode.bare, AstOne.bare,
            read_expression a hs.1, hn hs.2]
      | returnStatement =>
          have hone := hs.1
          rw [Bool.or_eq_true, beq_iff_eq] at hone
          have hvalue : (lowerList a).head.read id = a.bare := by
            rcases hone with rfl | hone
            · rfl
            · exact read_operand hone
          simp only [lowerList, lowerOpcode, AstOne.isList, Bool.false_eq_true, if_false, Hir.read, readOne, AstNode.bare,
            AstOne.bare, hvalue, hn hs.2]
      | functionDeclaration h =>
          simp only [lowerList, lowerOpcode, AstOne.isList, if_true, Hir.read, readOne, AstNode.bare, AstOne.bare,
            FunctionHeader.bare, List.map_map, ha hs.1, hn hs.2]
          rfl
      | unsafeBlock =>
          simp only [lowerList, lowerOpcode, AstOne.isList, if_true, Hir.read, readOne, AstNode.bare, AstOne.bare,
            ha hs.1, hn hs.2]
      | _ => simp at hs
  | two kind a b n _ hb hn =>
      simp only [statementShape, Bool.and_eq_true] at hs
      cases kind with
      | whileStatement =>
          simp only [Bool.and_eq_true] at hs
          simp only [lowerList, Hir.read, readTwo, AstNode.bare, read_operand hs.1.1, hb hs.1.2, hn hs.2]
      | assignment =>
          simp only [Bool.and_eq_true] at hs
          simp only [lowerList, lowerTwo, Hir.read, readTwo, AstNode.bare, read_operand hs.1.1, read_operand hs.1.2,
            hn hs.2]
      | _ => simp at hs
  | ifStatement c t e n _ ht he hn =>
      simp only [statementShape, Bool.and_eq_true] at hs
      simp only [lowerList, Hir.read, AstNode.bare, read_operand hs.1.1.1, ht hs.1.1.2, he hs.1.2, hn hs.2]

/-! ## The whole program -/

/-- The arena is the program: it spells one tree, all its nodes are in the tree, and the tree reads back to the program;
    no two variables have the same key. -/
structure ReadsBack (nodes : List Arena.VntIrNode) (ast : AstNode) : Prop where
  tree : ∃ h, Arena.Spells nodes .root h none ∧ Arena.positions h = List.range nodes.length ∧
    h.readProgram = ast.bare ∧ h.storageKeys.Nodup

/-- `fun f(x) { }` and `fun f(x: int) { }` -/
def emptyFunction (declared : Option String) : AstNode :=
  .one .program (.one (.functionDeclaration ⟨"f", [("x", declared)], none, false⟩) .null .null) .null

end Vnt
