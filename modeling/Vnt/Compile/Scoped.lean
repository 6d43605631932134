import Vnt.Front.Shape
import Vnt.Ir.RootScopes

/-!
# `Compile.Scoped` — storage keys and the scopes of the type checker

The declarations the checker finds are those of a lexical walk over the lowered tree, number by number. So the
resolver writes the keys of exactly these declarations if and only if no unsafe block hides a name that still
occurs and no nested function holds a variable.
-/

namespace Vnt

open Lib

/-! ## The checker's stack as a scope -/

def TypeChecker.scope (tc : TypeChecker) : Scope := ⟨tc.symbols.map fun s => (s.name, s.serial), tc.nextSerial⟩

theorem lookup_scope (tc : TypeChecker) (x : String) :
    tc.scope.env.lookup x = (tc.findSymbol x).map Symbol.serial := by
  unfold TypeChecker.scope TypeChecker.findSymbol
  induction tc.symbols with
  | nil => rfl
  | cons s symbols ih =>
      by_cases hx : s.name = x
      · subst hx
        simp [List.find?_cons_of_pos]
      · have hx' : (x == s.name) = false := by simpa using fun h => hx h.symm
        rw [List.find?_cons_of_neg (by simpa using hx), List.map_cons, List.lookup_cons, hx']
        exact ih

/-! ## Expressions -/

theorem lowerList_head {e : AstNode} (hlen : e.length ≤ 1) : (lowerList e).head = lowerList e := by
  have null_of : ∀ {n : AstNode}, n.length + 1 ≤ 1 → n = .null := by
    intro n hn
    cases n <;> simp [AstNode.length] at hn ⊢
  cases e with
  | null => rfl
  | leaf kind n => rw [null_of hlen]; rfl
  | one kind a n => rw [null_of hlen]; rfl
  | two kind a b n => rw [null_of hlen]; cases kind <;> rfl
  | ifStatement c t e n => rw [null_of hlen]; rfl

theorem headLog_flatten {tc : TypeChecker} {e : AstNode} (hlen : e.length ≤ 1) :
    headLog (exprLogs tc e) = (exprLogs tc e).flatten := by
  have null_of : ∀ {n : AstNode}, n.length + 1 ≤ 1 → n = .null := by
    intro n hn
    cases n <;> simp [AstNode.length] at hn ⊢
  cases e with
  | null => rfl
  | leaf kind n => rw [null_of hlen]; simp [exprLogs, headLog]
  | one kind a n => rw [null_of hlen]; simp [exprLogs, headLog]
  | two kind a b n => rw [null_of hlen]; simp [exprLogs, headLog]
  | ifStatement c t e n => rw [null_of hlen]; simp [exprLogs, headLog]

/-- A typed expression is walked to what the checker found for its variables. -/
theorem walk_expression {tc : TypeChecker} {s : Scope} (henv : s.env = tc.scope.env) (e : AstNode)
    (hs : expressionShape e = true) (hok : AllOk (exprTypes tc e)) :
    walk false (lowerList (resolveCalls tc e)) s = some ((exprLogs tc e).flatten, s) := by
  induction e with
  | null => rfl
  | leaf kind n ih =>
      simp only [expressionShape, Bool.and_eq_true] at hs
      have hrest := ih hs.2 fun m hm => hok m (List.mem_cons_of_mem _ hm)
      obtain ⟨t, ht⟩ := hok _ List.mem_cons_self
      cases kind with
      | «variable» x =>
          have hfind : ∃ b, tc.findSymbol x = some b := by
            unfold leafType at ht
            dsimp only at ht
            cases hb : tc.findSymbol x with
            | none => rw [hb] at ht; exact absurd ht throw_ne_ok
            | some b => exact ⟨b, rfl⟩
          obtain ⟨b, hb⟩ := hfind
          have hlook : s.env.lookup x = some b.serial := by rw [henv, lookup_scope, hb]; rfl
          simp [walk, hlook, hrest, exprLogs, hb]
      | _ => simpa [resolveCalls, walk, exprLogs] using hrest
  | one kind a n iha ihn =>
      simp only [expressionShape, Bool.and_eq_true] at hs
      have hrest := ihn hs.2 fun m hm => hok m (List.mem_cons_of_mem _ hm)
      obtain ⟨t, ht⟩ := hok _ List.mem_cons_self
      cases kind with
      | functionCall name =>
          simp only [callType, bind_eq_ok] at ht
          obtain ⟨-, -, -, -, ts, hts, -⟩ := ht
          have hargs := iha hs.1.2 (AllOk.of_checkArguments hts)
          simp [walk, hargs, hrest, exprLogs]
      | arrayLiteral =>
          simp only [bind_eq_ok] at ht
          obtain ⟨ts, hts, -⟩ := ht
          have hargs := iha hs.1.2 (AllOk.of_checkArguments hts)
          simp [walk, hargs, hrest, exprLogs]
      | memberExpression name =>
          have hlen : a.length ≤ 1 := by simpa using Nat.le_of_eq (by simpa using hs.1.1)
          simp only [bind_eq_ok] at ht
          obtain ⟨u, hu, -⟩ := ht
          have harg := iha hs.1.2 (AllOk.of_headType hlen hu)
          have hhead := lowerList_head (e := resolveCalls tc a) (by rwa [length_resolveCalls])
          simp [walk, hhead, harg, hrest, exprLogs, headLog_flatten hlen]
      | unaryExpression op =>
          have hlen : a.length ≤ 1 := by simpa using Nat.le_of_eq (by simpa using hs.1.1)
          simp only [bind_eq_ok] at ht
          obtain ⟨u, hu, -⟩ := ht
          have harg := iha hs.1.2 (AllOk.of_headType hlen hu)
          have hhead := lowerList_head (e := resolveCalls tc a) (by rwa [length_resolveCalls])
          simp [walk, hhead, harg, hrest, exprLogs, headLog_flatten hlen]
      | _ => simp at hs
  | two kind a b n iha ihb ihn =>
      simp only [expressionShape, Bool.and_eq_true] at hs
      have hrest := ihn hs.2 fun m hm => hok m (List.mem_cons_of_mem _ hm)
      obtain ⟨t, ht⟩ := hok _ List.mem_cons_self
      cases kind with
      | indexExpression =>
          simp only [Bool.and_eq_true, beq_iff_eq] at hs
          simp only [bind_eq_ok] at ht
          obtain ⟨u, hu, v, hv, -⟩ := ht
          have hla : a.length ≤ 1 := Nat.le_of_eq hs.1.1.1.1
          have hlb : b.length ≤ 1 := Nat.le_of_eq hs.1.1.1.2
          have ha := iha hs.1.1.2 (AllOk.of_headType hla hu)
          have hb := ihb hs.1.2 (AllOk.of_headType hlb hv)
          have hha := lowerList_head (e := resolveCalls tc a) (by rwa [length_resolveCalls])
          have hhb := lowerList_head (e := resolveCalls tc b) (by rwa [length_resolveCalls])
          simp [walk, hha, hhb, ha, hb, hrest, exprLogs, headLog_flatten hla, headLog_flatten hlb]
      | binaryExpression op =>
          simp only [Bool.and_eq_true, beq_iff_eq] at hs
          simp only [bind_eq_ok] at ht
          obtain ⟨u, hu, v, hv, -⟩ := ht
          have hla : a.length ≤ 1 := Nat.le_of_eq hs.1.1.1.1
          have hlb : b.length ≤ 1 := Nat.le_of_eq hs.1.1.1.2
          have ha := iha hs.1.1.2 (AllOk.of_headType hla hu)
          have hb := ihb hs.1.2 (AllOk.of_headType hlb hv)
          have hha := lowerList_head (e := resolveCalls tc a) (by rwa [length_resolveCalls])
          have hhb := lowerList_head (e := resolveCalls tc b) (by rwa [length_resolveCalls])
          simp [walk, hha, hhb, ha, hb, hrest, exprLogs, headLog_flatten hla, headLog_flatten hlb]
      | _ => simp at hs
  | ifStatement c t e n _ _ _ _ => simp at hs

/-- The single operand of a statement. -/
theorem walk_operand {tc : TypeChecker} {e : AstNode} {t : TypeKind} (hs : e = .null ∨ operandShape e = true)
    (hok : exprType tc e = .ok t) :
    walk false (lowerList (resolveCalls tc e)).head tc.scope = some (headLog (exprLogs tc e), tc.scope) := by
  have hlen : e.length ≤ 1 := by
    rcases hs with rfl | hs
    · exact Nat.zero_le _
    · simp only [operandShape, Bool.and_eq_true, beq_iff_eq] at hs
      exact Nat.le_of_eq hs.1
  have hshape : expressionShape e = true := by
    rcases hs with rfl | hs
    · rfl
    · simp only [operandShape, Bool.and_eq_true] at hs
      exact hs.2
  rw [lowerList_head (by rwa [length_resolveCalls]), headLog_flatten hlen]
  exact walk_expression rfl e hshape (AllOk.of_headType hlen hok)

/-! ## What the checker does to its stack -/

theorem scope_updateSymbols {name : String} {t : TypeKind} {b : Bool} : ∀ {symbols symbols' : List Symbol},
    TypeChecker.updateSymbols name t b symbols = .ok symbols' →
      symbols'.map (fun s => (s.name, s.serial)) = symbols.map fun s => (s.name, s.serial) := by
  have one : ∀ {s s' : Symbol}, TypeChecker.updateSymbol s t b = .ok s' → s'.name = s.name ∧ s'.serial = s.serial := by
    intro s s' h
    unfold TypeChecker.updateSymbol at h
    split at h
    · split at h
      · exact absurd h throw_ne_ok
      · cases h; exact ⟨rfl, rfl⟩
    · simp only at h
      split at h <;> (cases h; exact ⟨rfl, rfl⟩)
  intro symbols
  induction symbols with
  | nil => intro symbols' h; cases h; rfl
  | cons s symbols ih =>
      intro symbols' h
      simp only [TypeChecker.updateSymbols] at h
      split at h
      · obtain ⟨s', hs', h⟩ := bind_eq_ok.mp h
        cases h
        obtain ⟨hn, hk⟩ := one hs'
        simp [hn, hk]
      · obtain ⟨rest, hr, h⟩ := bind_eq_ok.mp h
        cases h
        simp [ih hr]

theorem scope_setSymbol {tc tc' : TypeChecker} {name : String} {t : TypeKind} {b : Bool}
    (h : tc.setSymbol name t b = .ok tc') : tc'.log = tc.log ∧
      tc'.scope = if (tc.findSymbol name).isSome then tc.scope else tc.scope.declare name := by
  unfold TypeChecker.setSymbol at h
  split at h
  · rename_i s hs
    obtain ⟨symbols, hu, h⟩ := bind_eq_ok.mp h
    cases h
    refine ⟨rfl, ?_⟩
    simp [TypeChecker.scope, hs, scope_updateSymbols hu]
  · rename_i hs
    cases h
    refine ⟨rfl, ?_⟩
    simp [hs, TypeChecker.scope, TypeChecker.addSymbol, Scope.declare]

/-- A declaration adds its symbol exactly if it is not taken for a reassignment. -/
theorem scope_checkDeclaration {tc tc' : TypeChecker} {name : String} {declared : Option String} {t : TypeKind}
    (h : checkDeclaration tc name declared t = .ok tc') : tc'.log = tc.log ∧
      tc'.scope = if tc.isReassignment name declared then tc.scope else tc.scope.declare name := by
  unfold checkDeclaration at h
  obtain ⟨-, -, h⟩ := bind_eq_ok.mp h
  cases declared with
  | none =>
      obtain ⟨-, -, h⟩ := bind_eq_ok.mp h
      simpa [TypeChecker.isReassignment, TypeChecker.shadowsOuter] using scope_setSymbol h
  | some text =>
      simp only [checkDeclared, bind_eq_ok, failIf_eq_ok] at h
      obtain ⟨-, -, -, hredeclare, -, -, h⟩ := h
      cases hshadow : tc.shadowsOuter name (some text) with
      | true =>
          rw [hshadow] at h
          cases h
          refine ⟨rfl, ?_⟩
          simp [TypeChecker.isReassignment, hshadow, TypeChecker.scope, TypeChecker.addSymbol, Scope.declare]
      | false =>
          -- Only a name that is not in scope gets here.
          rw [hshadow] at h hredeclare
          have hfree : (tc.findSymbol name).isSome = false := by simpa using hredeclare
          obtain ⟨hlog, hscope⟩ := scope_setSymbol h
          exact ⟨hlog, by simpa [TypeChecker.isReassignment, hfree] using hscope⟩

theorem scope_leaveBlock {tc inner : TypeChecker} {names : List String} (h : tc.scope.Grows inner.scope names) :
    (leaveBlock tc inner).scope = tc.scope.leave inner.scope := by
  obtain ⟨-, new, henv, -, -⟩ := h
  have henv' : inner.symbols.map (fun s => (s.name, s.serial)) =
      new ++ tc.symbols.map fun s => (s.name, s.serial) := henv
  have hlen : inner.symbols.length = new.length + tc.symbols.length := by
    simpa using congrArg List.length henv'
  simp only [leaveBlock, TypeChecker.scope, Scope.leave, TypeChecker.discardSymbolsTo, List.map_drop, henv', hlen]
  simp

theorem scope_restoreSymbols {tc : TypeChecker} {states : List Symbol} (h : states.length = tc.symbols.length) :
    (tc.restoreSymbols states).scope = tc.scope := by
  have hmap : ∀ {l m : List Symbol}, m.length = l.length →
      ((l.zip m).map fun p => ({ p.1 with type := p.2.type, dynamic := p.2.dynamic } : Symbol)).map
        (fun s => (s.name, s.serial)) = l.map fun s => (s.name, s.serial) := by
    intro l
    induction l with
    | nil => intro m _; rfl
    | cons s l ih =>
        intro m hm
        cases m with
        | nil => simp at hm
        | cons u m => simp only [List.zip_cons_cons, List.map_cons, ih (by simpa using hm)]
  simp only [TypeChecker.restoreSymbols, TypeChecker.scope, hmap h]

theorem mergeSymbol_name (before thenState s : Symbol) :
    (TypeChecker.mergeSymbol before thenState s).name = s.name ∧
      (TypeChecker.mergeSymbol before thenState s).serial = s.serial := by
  unfold TypeChecker.mergeSymbol
  simp only
  split
  · split <;> exact ⟨rfl, rfl⟩
  · split <;> exact ⟨rfl, rfl⟩

theorem scope_mergeBranchSymbols {tc : TypeChecker} {before thenState : List Symbol}
    (hb : before.length = tc.symbols.length) (ht : thenState.length = tc.symbols.length) :
    (tc.mergeBranchSymbols before thenState).scope = tc.scope := by
  have hmap : ∀ {l a b : List Symbol}, a.length = l.length → b.length = l.length →
      ((a.zip (b.zip l)).map fun p => TypeChecker.mergeSymbol p.1 p.2.1 p.2.2).map
        (fun s => (s.name, s.serial)) = l.map fun s => (s.name, s.serial) := by
    intro l
    induction l with
    | nil =>
        intro a b ha hb
        rw [List.length_eq_zero_iff.mp ha, List.length_eq_zero_iff.mp hb]
        rfl
    | cons s l ih =>
        intro a b ha hb
        cases a with
        | nil => simp at ha
        | cons x a =>
            cases b with
            | nil => simp at hb
            | cons y b =>
                obtain ⟨hn, hk⟩ := mergeSymbol_name x y s
                simp only [List.zip_cons_cons, List.map_cons, hn, hk, ih (by simpa using ha) (by simpa using hb)]
  simp only [TypeChecker.mergeBranchSymbols, TypeChecker.scope, hmap hb ht]

theorem scope_declareParameters : ∀ {ps : List (String × Option String)} {seen : List String}
    {tc tc' : TypeChecker}, declareParameters ps seen tc = .ok tc' →
      tc'.scope = (Scope.declareAll (ps.map Prod.fst) tc.scope).2 ∧
        tc'.log = tc.log ++ (Scope.declareAll (ps.map Prod.fst) tc.scope).1 := by
  intro ps
  induction ps with
  | nil => intro seen tc tc' h; cases h; exact ⟨rfl, by simp [Scope.declareAll]⟩
  | cons p ps ih =>
      intro seen tc tc' h
      simp only [declareParameters, bind_eq_ok] at h
      obtain ⟨-, -, -, -, h⟩ := h
      obtain ⟨hscope, hlog⟩ := ih h
      refine ⟨hscope, ?_⟩
      rw [hlog]
      simp [TypeChecker.logSymbol, TypeChecker.findSymbol, TypeChecker.addSymbol, TypeChecker.scope,
        Scope.declareAll, Scope.declare]

/-! ## Statements -/

theorem findSymbol_isSome_scope {tc : TypeChecker} {x : String} {k : Nat}
    (h : tc.scope.env.lookup x = some k) : (tc.findSymbol x).toList.map (fun s => (x, s.serial)) = [(x, k)] := by
  rw [lookup_scope, Option.map_eq_some_iff] at h
  obtain ⟨s, hs, rfl⟩ := h
  rw [hs]
  rfl

theorem length_eq_of_scope {tc tc' : TypeChecker} (h : tc.scope.env = tc'.scope.env) :
    tc.symbols.length = tc'.symbols.length := by
  simpa [TypeChecker.scope] using congrArg List.length h

theorem exprLogs_logExpr (tc : TypeChecker) (e f : AstNode) : exprLogs (tc.logExpr f) e = exprLogs tc e := by
  have hfind : ∀ x, (tc.logExpr f).findSymbol x = tc.findSymbol x := fun _ => rfl
  induction e with
  | null => rfl
  | leaf kind n ih => simp only [exprLogs, ih, hfind]
  | one kind a n iha ihn => simp only [exprLogs, iha, ihn]
  | two kind a b n iha ihb ihn => simp only [exprLogs, iha, ihb, ihn]
  | ifStatement c t e n _ _ _ ihn => simp only [exprLogs, ihn]

/-- The checker walked these statements, and logged what a lexical walk over the lowered ones notes. -/
def WalkedTo (tc : TypeChecker) (n : AstNode) (tc' : TypeChecker) : Prop :=
  ∃ l, walk false (lowerList n) tc.scope = some (l, tc'.scope) ∧ tc'.log = tc.log ++ l

/-- A block: after it the stack is as before, with more numbers used up. -/
theorem WalkedTo.leaveBlock {tc inner : TypeChecker} {n : AstNode} (h : WalkedTo tc n inner) :
    ∃ l, walk false (lowerList n) tc.scope = some (l, inner.scope) ∧ inner.log = tc.log ++ l ∧
      (Vnt.leaveBlock tc inner).scope = tc.scope.leave inner.scope := by
  obtain ⟨l, hw, hlog⟩ := h
  exact ⟨l, hw, hlog, scope_leaveBlock (walk_grows _ hw)⟩

/-- The stack between the arms of an `if` and behind them is that in front, but for the types. -/
theorem scope_branches {tc first restored second : TypeChecker} {c t' e' : AstNode}
    (ht : WalkedTo (enterBranch (tc.logExpr c)) t' first)
    (restore : restored = (leaveBlock (tc.logExpr c) first).restoreSymbols (tc.logExpr c).symbols)
    (he : WalkedTo (enterBranch restored) e' second) :
    restored.scope = tc.scope.leave first.scope ∧
      ((leaveBlock restored second).mergeBranchSymbols (tc.logExpr c).symbols
        (leaveBlock (tc.logExpr c) first).symbols).scope = tc.scope.leave second.scope := by
  obtain ⟨-, -, -, hleave⟩ := ht.leaveBlock
  obtain ⟨-, -, -, hleave₂⟩ := he.leaveBlock
  have hthen : (leaveBlock (tc.logExpr c) first).scope = tc.scope.leave first.scope := hleave
  have hlen : (tc.logExpr c).symbols.length = (leaveBlock (tc.logExpr c) first).symbols.length :=
    length_eq_of_scope (by rw [hthen]; rfl)
  have hrestored : restored.scope = tc.scope.leave first.scope := by
    rw [restore, scope_restoreSymbols hlen, hthen]
  have helse : (leaveBlock restored second).scope = tc.scope.leave second.scope := by
    have : (leaveBlock restored second).scope = restored.scope.leave second.scope := hleave₂
    rw [this, hrestored]
    rfl
  have hlen₂ : (tc.logExpr c).symbols.length = (leaveBlock restored second).symbols.length :=
    length_eq_of_scope (by rw [helse]; rfl)
  refine ⟨hrestored, ?_⟩
  rw [scope_mergeBranchSymbols hlen₂ (by rw [← hlen]; exact hlen₂), helse]

theorem Checked.walked {tc tc' : TypeChecker} {n n' : AstNode} (h : Checked tc n tc' n')
    (hs : statementShape n = true) : WalkedTo tc n' tc' := by
  induction h with
  | null => exact ⟨[], rfl, by simp⟩
  | @leaf tc tc' kind n n' test rest ih =>
      simp only [statementShape, Bool.and_eq_true] at hs
      obtain ⟨l, hw, hlog⟩ := ih hs.2
      refine ⟨l, ?_, hlog⟩
      have hk := hs.1
      cases kind <;> first | exact hw | cases hk
  | @declaration tc tc₁ tc' name declared b value t n n' value_ok store rest ih =>
      simp only [statementShape, Bool.and_eq_true] at hs
      obtain ⟨l, hw, hlog⟩ := ih hs.2
      have hvalue := walk_operand (.inr hs.1) value_ok
      obtain ⟨hlog₁, hscope₁⟩ := scope_checkDeclaration store
      have hsame : (tc.logExpr value).isReassignment name declared = tc.isReassignment name declared := rfl
      have hscope : (tc₁.logSymbol name).scope = tc₁.scope := rfl
      rw [hsame] at hscope₁
      rw [hscope] at hw
      have hlook : ∃ k, tc₁.scope.env.lookup name = some k ∧
          walk false (lowerList (.one (.variableDeclaration name declared (tc.isReassignment name declared))
            (resolveCalls tc value) n')) tc.scope =
            some (headLog (exprLogs tc value) ++ (name, k) :: l, tc'.scope) := by
        cases hre : tc.isReassignment name declared with
        | true =>
            rw [hre] at hscope₁
            have hscope₁ : tc₁.scope = tc.scope := hscope₁
            have hfound : (tc.findSymbol name).isSome = true := by
              unfold TypeChecker.isReassignment at hre
              exact (Bool.and_eq_true _ _ ▸ hre).1
            obtain ⟨s, hsym⟩ := Option.isSome_iff_exists.mp hfound
            have hk : tc.scope.env.lookup name = some s.serial := by rw [lookup_scope, hsym]; rfl
            rw [hscope₁] at hw ⊢
            exact ⟨s.serial, hk, by simp [walk, hvalue, hk, hw]⟩
        | false =>
            rw [hre] at hscope₁
            have hscope₁ : tc₁.scope = tc.scope.declare name := hscope₁
            rw [hscope₁] at hw ⊢
            exact ⟨tc.scope.next, by simp [Scope.declare],
              by simp [walk, hvalue, hw]⟩
      obtain ⟨k, hk, hwalk⟩ := hlook
      refine ⟨_, hwalk, ?_⟩
      rw [hlog, TypeChecker.logSymbol, findSymbol_isSome_scope hk]
      simp [hlog₁, TypeChecker.logExpr]
  | @print tc tc' e t n n' value_ok rest ih =>
      simp only [statementShape, Bool.and_eq_true] at hs
      obtain ⟨l, hw, hlog⟩ := ih hs.2
      have hvalue := walk_operand (.inr hs.1) value_ok
      have hw' : walk false (lowerList n') tc.scope = some (l, tc'.scope) := hw
      refine ⟨headLog (exprLogs tc e) ++ l, ?_, by simp [hlog, TypeChecker.logExpr]⟩
      simp [walk, hvalue, hw']
  | @returnStatement tc tc' e t n n' inside value_ok rest ih =>
      simp only [statementShape, Bool.and_eq_true, Bool.or_eq_true, beq_iff_eq] at hs
      obtain ⟨l, hw, hlog⟩ := ih hs.2
      have hvalue := walk_operand hs.1 value_ok
      have hw' : walk false (lowerList n') tc.scope = some (l, tc'.scope) := hw
      refine ⟨headLog (exprLogs tc e) ++ l, ?_, by simp [hlog, TypeChecker.logExpr]⟩
      simp [walk, hvalue, hw']
  | @call tc tc' name args t n n' value_ok rest ih =>
      simp only [statementShape, Bool.and_eq_true] at hs
      obtain ⟨l, hw, hlog⟩ := ih hs.2
      have hargs : AllOk (exprTypes tc args) := by
        simp only [exprType, exprTypes, headType, callType, bind_eq_ok] at value_ok
        obtain ⟨-, -, -, -, ts, hts, -⟩ := value_ok
        exact AllOk.of_checkArguments hts
      have hvalue := walk_expression (s := tc.scope) rfl args hs.1 hargs
      have hw' : walk false (lowerList n') tc.scope = some (l, tc'.scope) := hw
      refine ⟨(exprLogs tc args).flatten ++ l, ?_, by simp [hlog, TypeChecker.logExpr, exprLogs, headLog]⟩
      simp [walk, hvalue, hw']
  | @unsafeBlock tc inner tc' body body' n n' block rest ihb ih =>
      simp only [statementShape, Bool.and_eq_true] at hs
      obtain ⟨lb, hwb, hlogb, hleave⟩ := (ihb hs.1).leaveBlock
      obtain ⟨l, hw, hlog⟩ := ih hs.2
      have hleave' : (Vnt.leaveBlock tc inner).scope = tc.scope.leave inner.scope := hleave
      rw [hleave'] at hw
      have hwb' : walk false (lowerList body') tc.scope = some (lb, inner.scope) := hwb
      refine ⟨lb ++ l, by simp [walk, hwb', hw], ?_⟩
      have hlogb' : inner.log = tc.log ++ lb := hlogb
      simp [hlog, Vnt.leaveBlock, hlogb']
  | @function tc tc₂ inner tc' h body body' n n' parameters block rest ihb ih =>
      simp only [statementShape, Bool.and_eq_true] at hs
      obtain ⟨hscope, hplog⟩ := scope_declareParameters parameters
      obtain ⟨lb, hwb, hlogb⟩ := ihb hs.1
      obtain ⟨l, hw, hlog⟩ := ih hs.2
      have hstart : (enterFunction tc h).scope = tc.scope := rfl
      rw [hstart] at hscope hplog
      have hgrows := (Scope.declareAll_grows (h.parameters.map Prod.fst) tc.scope).trans (hscope ▸ walk_grows _ hwb)
      rw [scope_leaveBlock hgrows] at hw
      rw [hscope] at hwb
      refine ⟨(Scope.declareAll (h.parameters.map Prod.fst) tc.scope).1 ++ (lb ++ l), ?_, ?_⟩
      · simp [walk, hwb, hw]
      · have hplog' : tc₂.log = tc.log ++ (Scope.declareAll (h.parameters.map Prod.fst) tc.scope).1 := hplog
        simp [hlog, Vnt.leaveBlock, hlogb, hplog']
  | @inertOne _ _ kind _ _ _ inert _ _ => cases kind <;> simp_all [AstOne.isInert]
  | @assignment tc tc' target value t v n n' target_ok value_ok rest ih =>
      simp only [statementShape, Bool.and_eq_true] at hs
      obtain ⟨l, hw, hlog⟩ := ih hs.2
      have htarget := walk_operand (.inr hs.1.1) target_ok
      have hvalue := walk_operand (.inr hs.1.2) value_ok
      have hw' : walk false (lowerList n') tc.scope = some (l, tc'.scope) := hw
      refine ⟨headLog (exprLogs tc target) ++ (headLog (exprLogs tc value) ++ l), ?_, ?_⟩
      · simp [walk, htarget, hvalue, hw']
      · have hsame := exprLogs_logExpr tc value target
        simp only [TypeChecker.logExpr] at hsame
        simp [hlog, TypeChecker.logExpr, hsame]
  | @whileStatement tc inner tc' c t body body' n n' condition_ok block rest ihb ih =>
      simp only [statementShape, Bool.and_eq_true] at hs
      have hcond := walk_operand (.inr hs.1.1) condition_ok
      obtain ⟨lb, hwb, hlogb, hleave⟩ := (ihb hs.1.2).leaveBlock
      obtain ⟨l, hw, hlog⟩ := ih hs.2
      have hleave' : (Vnt.leaveBlock (tc.logExpr c) inner).scope = tc.scope.leave inner.scope := hleave
      rw [hleave'] at hw
      have hwb' : walk false (lowerList body') tc.scope = some (lb, inner.scope) := hwb
      refine ⟨headLog (exprLogs tc c) ++ (lb ++ l), by simp [walk, hcond, hwb', hw], ?_⟩
      have hlogb' : inner.log = tc.log ++ headLog (exprLogs tc c) ++ lb := hlogb
      simp [hlog, Vnt.leaveBlock, hlogb']
  | @inertTwo _ _ kind _ _ _ _ inert _ _ => cases kind <;> simp_all [AstTwo.isInert]
  | @ifStatement tc first restored second tc' c ty t t' e e' n n' condition_ok _ restore _ rest iht ihe ih =>
      simp only [statementShape, Bool.and_eq_true] at hs
      have hcond := walk_operand (.inr hs.1.1.1) condition_ok
      obtain ⟨hrestored, hmerged⟩ := scope_branches (iht hs.1.1.2) restore (ihe hs.1.2)
      obtain ⟨lt, hwt, hlogt⟩ := iht hs.1.1.2
      obtain ⟨le, hwe, hloge⟩ := ihe hs.1.2
      obtain ⟨l, hw, hlog⟩ := ih hs.2
      rw [hmerged] at hw
      have hwt' : walk false (lowerList t') tc.scope = some (lt, first.scope) := hwt
      have hwe' : walk false (lowerList e') (tc.scope.leave first.scope) = some (le, second.scope) := hrestored ▸ hwe
      refine ⟨headLog (exprLogs tc c) ++ (lt ++ (le ++ l)), by simp [walk, hcond, hwt', hwe', hw], ?_⟩
      have hlogt' : first.log = tc.log ++ headLog (exprLogs tc c) ++ lt := hlogt
      have hloge' : second.log = restored.log ++ le := hloge
      have hlogr : restored.log = first.log := by rw [restore]; rfl
      simp [hlog, TypeChecker.mergeBranchSymbols, Vnt.leaveBlock, hloge', hlogr, hlogt']

/-! ## Declarations of the root -/

/-- At the top level a name is declared once, and only if it is not in scope. -/
theorem Checked.rootDeclared {tc tc' : TypeChecker} {n n' : AstNode} (h : Checked tc n tc' n')
    (hs : statementShape n = true) (hd : tc.scopeDepth = 0) :
    (lowerList n').rootDeclared.Nodup ∧ ∀ x ∈ (lowerList n').rootDeclared, tc.scope.env.lookup x = none := by
  induction h with
  | null => exact ⟨List.nodup_nil, by simp [Hir.rootDeclared]⟩
  | leaf test rest ih =>
      simp only [statementShape, Bool.and_eq_true] at hs
      exact ih hs.2 hd
  | @declaration tc tc₁ tc' name declared b value t n n' value_ok store rest ih =>
      simp only [statementShape, Bool.and_eq_true] at hs
      have hd₁ : (tc₁.logSymbol name).scopeDepth = 0 := by
        have := sameContext_checkDeclaration store
        unfold SameContext at this
        show tc₁.scopeDepth = 0
        rw [this]
        exact hd
      obtain ⟨hnodup, hfree⟩ := ih hs.2 hd₁
      have hscope₁ : tc₁.scope =
          if tc.isReassignment name declared then tc.scope else tc.scope.declare name :=
        (scope_checkDeclaration store).2
      have hfree' : ∀ x ∈ (lowerList n').rootDeclared, tc₁.scope.env.lookup x = none := hfree
      cases hre : tc.isReassignment name declared with
      | true =>
          rw [hre] at hscope₁
          have hscope₁ : tc₁.scope = tc.scope := hscope₁
          rw [hscope₁] at hfree'
          exact ⟨hnodup, hfree'⟩
      | false =>
          rw [hre] at hscope₁
          have hscope₁ : tc₁.scope = tc.scope.declare name := hscope₁
          rw [hscope₁] at hfree'
          have hne : ∀ x ∈ (lowerList n').rootDeclared, x ≠ name := by
            rintro x hx rfl
            have := hfree' x hx
            simp [Scope.declare] at this
          -- No enclosing scope, so nothing to shadow.
          have hnone : tc.findSymbol name = none := by
            have hshadow : tc.shadowsOuter name declared = false := by
              simp [TypeChecker.shadowsOuter, hd]
            simpa [TypeChecker.isReassignment, hshadow] using hre
          refine ⟨List.nodup_cons.mpr ⟨fun hx => hne _ hx rfl, hnodup⟩, fun x hx => ?_⟩
          rcases List.mem_cons.mp hx with rfl | hx
          · rw [lookup_scope, hnone]
            rfl
          · have hx' := hfree' x hx
            have hxn : (x == name) = false := by simpa using hne x hx
            simpa [Scope.declare, List.lookup_cons, hxn] using hx'
  | print value_ok rest ih =>
      simp only [statementShape, Bool.and_eq_true] at hs
      exact ih hs.2 hd
  | returnStatement inside value_ok rest ih =>
      simp only [statementShape, Bool.and_eq_true] at hs
      exact ih hs.2 hd
  | call value_ok rest ih =>
      simp only [statementShape, Bool.and_eq_true] at hs
      exact ih hs.2 hd
  | @unsafeBlock tc inner tc' body body' n n' block rest _ ih =>
      simp only [statementShape, Bool.and_eq_true] at hs
      obtain ⟨-, -, -, hleave⟩ := (block.walked hs.1).leaveBlock
      have hleave' : (leaveBlock tc inner).scope = tc.scope.leave inner.scope := hleave
      have := ih hs.2 hd
      rw [hleave'] at this
      exact this
  | @function tc tc₂ inner tc' h body body' n n' parameters block rest _ ih =>
      simp only [statementShape, Bool.and_eq_true] at hs
      obtain ⟨lb, hwb, -⟩ := block.walked hs.1
      have hscope := (scope_declareParameters parameters).1
      have hgrows := (Scope.declareAll_grows (h.parameters.map Prod.fst) tc.scope).trans (hscope ▸ walk_grows _ hwb)
      have := ih hs.2 hd
      rw [scope_leaveBlock hgrows] at this
      exact this
  | @inertOne _ _ kind _ _ _ inert _ _ => cases kind <;> simp_all [AstOne.isInert]
  | assignment target_ok value_ok rest ih =>
      simp only [statementShape, Bool.and_eq_true] at hs
      exact ih hs.2 hd
  | @whileStatement tc inner tc' c t body body' n n' condition_ok block rest _ ih =>
      simp only [statementShape, Bool.and_eq_true] at hs
      obtain ⟨-, -, -, hleave⟩ := (block.walked hs.1.2).leaveBlock
      have hleave' : (leaveBlock (tc.logExpr c) inner).scope = tc.scope.leave inner.scope := hleave
      have := ih hs.2 hd
      rw [hleave'] at this
      exact this
  | @inertTwo _ _ kind _ _ _ _ inert _ _ => cases kind <;> simp_all [AstTwo.isInert]
  | @ifStatement tc first restored second tc' c ty t t' e e' n n' condition_ok thenBlock restore elseBlock rest _ _ ih =>
      simp only [statementShape, Bool.and_eq_true] at hs
      obtain ⟨-, hmerged⟩ := scope_branches (thenBlock.walked hs.1.1.2) restore (elseBlock.walked hs.1.2)
      have hd' : restored.scopeDepth = 0 := by rw [restore]; exact hd
      have := ih hs.2 hd'
      rw [hmerged] at this
      exact this

theorem declared_head {h : Hir} (hh : h.declared = []) : h.head.declared = [] := by
  cases h with
  | nil => rfl
  | leaf i op n => rfl
  | one i op a n => cases op <;> simp_all [Hir.head, Hir.declared]
  | two i op a b n => cases op <;> simp_all [Hir.head, Hir.declared]
  | ifNode i c t e n => simp_all [Hir.head, Hir.declared]

theorem declared_expression (e : AstNode) (hs : expressionShape e = true) : (lowerList e).declared = [] := by
  induction e with
  | null => rfl
  | leaf kind n ih =>
      simp only [expressionShape, Bool.and_eq_true] at hs
      exact ih hs.2
  | one kind a n iha ihn =>
      simp only [expressionShape, Bool.and_eq_true] at hs
      have ha := iha hs.1.2
      cases kind <;>
        first
          | (simp at hs; done)
          | simp [Hir.declared, ha, declared_head ha, ihn hs.2]
  | two kind a b n iha ihb ihn =>
      simp only [expressionShape, Bool.and_eq_true] at hs
      have ha := declared_head (iha hs.1.1.2)
      have hb := declared_head (ihb hs.1.2)
      cases kind <;>
        first
          | (simp at hs; done)
          | simp [Hir.declared, ha, hb, ihn hs.2]
  | ifStatement c t e n _ _ _ _ => simp at hs

/-- Lowered statements declare nothing inside their expressions. -/
theorem rootPlain_lowerList (n : AstNode) (hs : statementShape n = true) : (lowerList n).rootPlain := by
  have operand : ∀ {e : AstNode}, operandShape e = true → (lowerList e).head.declared = [] := by
    intro e he
    simp only [operandShape, Bool.and_eq_true] at he
    exact declared_head (declared_expression e he.2)
  induction n with
  | null => trivial
  | leaf kind n ih =>
      simp only [statementShape, Bool.and_eq_true] at hs
      exact ih hs.2
  | one kind a n _ ihn =>
      simp only [statementShape, Bool.and_eq_true] at hs
      have hn := ihn hs.2
      cases kind with
      | variableDeclaration name declared re =>
          cases re <;> simp [Hir.rootPlain, Hir.declared, operand hs.1, hn]
      | functionDeclaration h => exact hn
      | functionCall name =>
          simp [Hir.rootPlain, Hir.declared, declared_expression a hs.1, hn]
      | returnStatement =>
          simp only [Bool.or_eq_true, beq_iff_eq] at hs
          have ha : (lowerList a).head.declared = [] := by
            rcases hs.1 with rfl | ha
            · rfl
            · exact operand ha
          simp [Hir.rootPlain, Hir.declared, ha, hn]
      | printStatement => simp [Hir.rootPlain, Hir.declared, operand hs.1, hn]
      | unsafeBlock => simp [Hir.rootPlain, Hir.declared, hn]
      | _ => simp at hs
  | two kind a b n _ _ ihn =>
      simp only [statementShape, Bool.and_eq_true] at hs
      have hn := ihn hs.2
      cases kind with
      | whileStatement =>
          simp only [Bool.and_eq_true] at hs
          simp [Hir.rootPlain, Hir.declared, operand hs.1.1, hn]
      | assignment =>
          simp only [Bool.and_eq_true] at hs
          simp [Hir.rootPlain, Hir.declared, operand hs.1.1, operand hs.1.2, hn]
      | _ => simp at hs
  | ifStatement c t e n _ _ _ ihn =>
      simp only [statementShape, Bool.and_eq_true] at hs
      simp [Hir.rootPlain, Hir.declared, operand hs.1.1.1, ihn hs.2]

/-! ## The resolver and the checker -/

/-- What `resolve_hir_symbols` is given: the lowered statements under the root, at their arena positions. -/
def loweredProgram (statements : AstNode) : Hir := (Hir.one 0 .program (lowerList statements) .nil).number 0

/-- **The resolver binds names as the checker scoped them exactly where unsafe blocks hide nothing that still
    occurs.** For every tree the parser can build and the checker accepts: each occurrence is given the storage
    key of the declaration `check_statements` found for it, different declarations having different keys, if and
    only if no name occurs that a closed unsafe block has declared after the declaration in scope, and no
    function inside another statement holds a variable or parameter. -/
theorem resolveHirSymbols_scoped_iff (statements statements' : AstNode) (tc : TypeChecker)
    (hs : statementShape statements = true) (hcheck : checkProgram statements = .ok (tc, statements')) :
    (∃ ir, resolveHirSymbols (loweredProgram statements') = some ir ∧ BindsAsScoped ir tc.log) ↔
      keepsScopes (loweredProgram statements') = true := by
  obtain ⟨tc₀, hcollect, hchecked⟩ := bind_eq_ok.mp hcheck
  have hst : Checked tc₀ statements tc statements' := checked_of_ok statements hchecked
  have htc := collectDeclarations_ok statements hcollect
  have hscope : tc₀.scope = ⟨[], 0⟩ := by rw [htc]; rfl
  have hlog₀ : tc₀.log = [] := by rw [htc]; rfl
  have hdepth : tc₀.scopeDepth = 0 := by rw [htc]; rfl
  obtain ⟨l, hwalk, hlog⟩ := hst.walked hs
  rw [hscope] at hwalk
  rw [hlog₀, List.nil_append] at hlog
  subst hlog
  have hs' : statementShape statements' = true := by rw [hst.shape, hs]
  refine resolveHirSymbols_binds_iff ?_ ?_ (s := tc.scope) ?_
  · exact (rootPlain_number _ _).mpr (rootPlain_lowerList _ hs')
  · rw [rootDeclared_number]
    exact (hst.rootDeclared hs hdepth).1
  · rw [walk_number]
    exact hwalk

/-- `x = 1  fun f(y) { print(x + y) }  if x > 0 { let x: int = 2  print(x) }  print(x)` -/
def shadowedBranch : AstNode :=
  .one (.variableDeclaration "x" none false) (.leaf (.integerLiteral 1) .null)
  (.one (.functionDeclaration ⟨"f", [("y", none)], none, false⟩)
    (.one .printStatement
      (.two (.binaryExpression .add) (.leaf (.variable "x") .null) (.leaf (.variable "y") .null) .null) .null)
  (.ifStatement (.two (.binaryExpression .greater) (.leaf (.variable "x") .null) (.leaf (.integerLiteral 0) .null)
      .null)
    (.one (.variableDeclaration "x" (some "int") false) (.leaf (.integerLiteral 2) .null)
      (.one .printStatement (.leaf (.variable "x") .null) .null))
    .null
  (.one .printStatement (.leaf (.variable "x") .null) .null)))

/-- Its statements as the checker leaves them, with what it found. -/
def shadowedBranchChecked : TypeChecker × AstNode :=
  ((checkProgram shadowedBranch).toOption).getD (.initial, .null)

theorem shadowedBranch_scoped : statementShape shadowedBranch = true ∧
    checkProgram shadowedBranch = .ok shadowedBranchChecked ∧
    keepsScopes (loweredProgram shadowedBranchChecked.2) = true ∧
    ∃ ir, resolveHirSymbols (loweredProgram shadowedBranchChecked.2) = some ir ∧
      BindsAsScoped ir shadowedBranchChecked.1.log := by
  have hs : statementShape shadowedBranch = true := by decide +kernel
  have hcheck : checkProgram shadowedBranch = .ok shadowedBranchChecked := by decide +kernel
  have hkeep : keepsScopes (loweredProgram shadowedBranchChecked.2) = true := by decide +kernel
  exact ⟨hs, hcheck, hkeep, (resolveHirSymbols_scoped_iff _ _ _ hs hcheck).mpr hkeep⟩

/-- `x = 1  unsafe { let x: int = 2 }  print(x)` -/
def hiddenByUnsafe : AstNode :=
  .one (.variableDeclaration "x" none false) (.leaf (.integerLiteral 1) .null)
  (.one .unsafeBlock
    (.one (.variableDeclaration "x" (some "int") false) (.leaf (.integerLiteral 2) .null) .null)
  (.one .printStatement (.leaf (.variable "x") .null) .null))

/-- The last line is scoped to the first declaration and gets the key of the one in the block. -/
theorem hiddenByUnsafe_misbound : statementShape hiddenByUnsafe = true ∧
    ∃ tc statements', checkProgram hiddenByUnsafe = .ok (tc, statements') ∧
      (resolveHirSymbols (loweredProgram statements')).isSome = true ∧
      ¬ ∃ ir, resolveHirSymbols (loweredProgram statements') = some ir ∧ BindsAsScoped ir tc.log := by
  refine ⟨by decide +kernel, ?_⟩
  obtain ⟨r, hr, hlog, hocc⟩ : ∃ r, checkProgram hiddenByUnsafe = .ok r ∧
      r.1.log = [("x", 0), ("x", 1), ("x", 0)] ∧
      (resolveHirSymbols (loweredProgram r.2)).map Hir.occurrences =
        some ["__vnt_symbol_0_x", "__vnt_symbol_1_x", "__vnt_symbol_1_x"] := by
    refine ⟨((checkProgram hiddenByUnsafe).toOption).getD (.initial, .null), ?_, ?_, ?_⟩ <;> decide +kernel
  refine ⟨r.1, r.2, hr, ?_, ?_⟩
  · cases h : resolveHirSymbols (loweredProgram r.2) with
    | none => rw [h] at hocc; cases hocc
    | some ir => rfl
  · rintro ⟨ir, hres, id, -, hkeys, -⟩
    rw [hres, Option.map_some, Option.some.injEq] at hocc
    rw [hlog, hocc] at hkeys
    simp only [List.map_cons, List.map_nil, List.cons.injEq, and_true] at hkeys
    have : "__vnt_symbol_0_x" = "__vnt_symbol_1_x" := hkeys.1.trans hkeys.2.2.symm
    exact absurd this (by decide)

end Vnt
