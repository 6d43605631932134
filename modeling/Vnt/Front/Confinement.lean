import Vnt.Front.Shape

/-!
# `Front.Confinement` — unsafe operations stay in unsafe blocks

The operations in question are the raw-memory and CPU intrinsics, calls of functions declared unsafe, and
inline assembly. `confined` says that each of them has an unsafe block around it inside its own function.
The checker enforces it by a list of names and a counter, with two gaps: two intrinsics are missing from
the list, and the counter is not reset where a function is declared inside an unsafe block.
-/

namespace Vnt

open Lib

/-! ## The property -/

/-- The raw-memory and CPU intrinsics of `builtin_arity`. -/
def intrinsics : List String := rawMemoryBuiltins ++ ["cpu_read_msr", "cpu_write_msr"]

/-- The part of the checker's state that decides what a call means. -/
def TypeChecker.tables (tc : TypeChecker) : TypeChecker :=
  { TypeChecker.initial with
    functions := tc.functions, structs := tc.structs, functionNamespace := tc.functionNamespace }

/-- The call is one of an intrinsic or of a function declared unsafe. -/
def unsafeCall (tc : TypeChecker) (name : String) (argc : Nat) : Bool :=
  let name := tc.resolveName name argc
  intrinsics.contains name || (tc.findFunctionDef name).any (·.isUnsafe)

/-- The call is one of the two intrinsics the checker's list lacks. -/
def msrCall (tc : TypeChecker) (name : String) (argc : Nat) : Bool :=
  ["cpu_read_msr", "cpu_write_msr"].contains (tc.resolveName name argc)

/-- Some call in the tree satisfies `p`. -/
@[simp] def anyCall (p : String → Nat → Bool) : AstNode → Bool
  | .null => false
  | .leaf _ n => anyCall p n
  | .one kind a n =>
      (match kind with
        | .functionCall name => p name a.length
        | _ => false) || anyCall p a || anyCall p n
  | .two _ a b n => anyCall p a || anyCall p b || anyCall p n
  | .ifStatement c t e n => anyCall p c || anyCall p t || anyCall p e || anyCall p n

/-- In every function of the chain, and in the chain itself, each call that satisfies `p` and, if
    `assembly` is set, each asm statement is inside an unsafe block of the same function. `inside` tells
    whether the chain itself is. -/
@[simp] def confined (p : TypeChecker → String → Nat → Bool) (assembly : Bool) :
    AstNode → TypeChecker → Bool → Bool
  | .null, _, _ => true
  | .leaf kind n, tc, inside =>
      (match kind with
        | .asmStatement _ _ => !assembly || inside
        | _ => true) && confined p assembly n tc inside
  | .one kind a n, tc, inside =>
      (match kind with
        | .unsafeBlock => confined p assembly a tc true
        | .functionDeclaration h => confined p assembly a (enterFunction tc h).tables false
        | kind => inside || !anyCall (p tc) (.one kind a .null)) && confined p assembly n tc inside
  | .two kind a b n, tc, inside =>
      (match kind with
        | .whileStatement => (inside || !anyCall (p tc) a) && confined p assembly b tc inside
        | _ => inside || !(anyCall (p tc) a || anyCall (p tc) b)) && confined p assembly n tc inside
  | .ifStatement c t e n, tc, inside =>
      (inside || !anyCall (p tc) c) && confined p assembly t tc inside &&
        confined p assembly e tc inside && confined p assembly n tc inside

/-- Every function that is declared inside an unsafe block is confined by itself. -/
@[simp] def nestedConfined : AstNode → TypeChecker → Bool → Bool
  | .null, _, _ => true
  | .leaf _ n, tc, inside => nestedConfined n tc inside
  | .one kind a n, tc, inside =>
      (match kind with
        | .unsafeBlock => nestedConfined a tc true
        | .functionDeclaration h =>
            if inside then confined unsafeCall true a (enterFunction tc h).tables false
            else nestedConfined a (enterFunction tc h).tables false
        | _ => true) && nestedConfined n tc inside
  | .two kind _ b n, tc, inside =>
      (match kind with
        | .whileStatement => nestedConfined b tc inside
        | _ => true) && nestedConfined n tc inside
  | .ifStatement _ t e n, tc, inside =>
      nestedConfined t tc inside && nestedConfined e tc inside && nestedConfined n tc inside

/-- The functions and structs of a program, outside all functions. -/
def programTables (statements : AstNode) : TypeChecker :=
  match collectDeclarations statements .initial with
  | .ok tc => tc.tables
  | .error _ => .initial

/-- **Unsafe confinement** of a program. -/
def unsafeConfined : AstNode → Bool
  | .one .program statements _ => confined unsafeCall true statements (programTables statements) false
  | _ => true

/-- Each call of `cpu_read_msr` and `cpu_write_msr` is confined. -/
def msrConfined : AstNode → Bool
  | .one .program statements _ => confined msrCall false statements (programTables statements) false
  | _ => true

/-- Each function declared inside an unsafe block is confined by itself. -/
def nestedFunctionsConfined : AstNode → Bool
  | .one .program statements _ => nestedConfined statements (programTables statements) false
  | _ => true

/-! ## What the checker sees in an expression -/

/-- The call is one the checker's list and the unsafe flag tell. -/
def listedCall (tc : TypeChecker) (name : String) (argc : Nat) : Bool :=
  let name := tc.resolveName name argc
  rawMemoryBuiltins.contains name || (tc.findFunctionDef name).any (·.isUnsafe)

theorem unsafeCall_eq (tc : TypeChecker) (name : String) (argc : Nat) :
    unsafeCall tc name argc = (msrCall tc name argc || listedCall tc name argc) := by
  simp only [unsafeCall, intrinsics, msrCall, listedCall, List.contains_append]
  cases rawMemoryBuiltins.contains (tc.resolveName name argc) <;>
    cases ["cpu_read_msr", "cpu_write_msr"].contains (tc.resolveName name argc) <;> rfl

theorem anyCall_or {p q r : String → Nat → Bool} (h : ∀ name argc, p name argc = (q name argc || r name argc))
    (e : AstNode) : anyCall p e = (anyCall q e || anyCall r e) := by
  induction e with
  | null => rfl
  | leaf kind n hn => exact hn
  | one kind a n ha hn =>
      cases kind <;> simp only [anyCall, ha, hn, h] <;> grind
  | two kind a b n ha hb hn => simp only [anyCall, ha, hb, hn]; grind
  | ifStatement c t e n hc ht he hn => simp only [anyCall, hc, ht, he, hn]; grind

/-- **Outside unsafe blocks no typed expression contains a listed call.** -/
theorem anyCall_listedCall {tc : TypeChecker} (hd : tc.unsafeDepth = 0) (e : AstNode)
    (hs : expressionShape e = true) (hok : AllOk (exprTypes tc e)) : anyCall (listedCall tc) e = false := by
  induction e with
  | null => rfl
  | leaf kind n hn =>
      simp only [expressionShape, Bool.and_eq_true] at hs
      exact hn hs.2 fun m hm => hok m (List.mem_cons_of_mem _ hm)
  | one kind a n ha hn =>
      simp only [expressionShape, Bool.and_eq_true] at hs
      have hrest := hn hs.2 fun m hm => hok m (List.mem_cons_of_mem _ hm)
      obtain ⟨t, ht⟩ := hok _ List.mem_cons_self
      cases kind with
      | functionCall name =>
          simp only [callType, bind_eq_ok, failIf_eq_ok] at ht
          obtain ⟨_, hunsafe, _, hraw, ts, hargs, -⟩ := ht
          have hcall : listedCall tc name a.length = false := by
            simp only [listedCall, Bool.or_eq_false_iff]
            constructor
            · simpa [hd] using hraw
            · simpa [hd] using hunsafe
          simp only [anyCall, hcall, ha hs.1.2 (AllOk.of_checkArguments hargs), hrest]
          rfl
      | arrayLiteral =>
          obtain ⟨ts, hargs, -⟩ := bind_eq_ok.mp ht
          simp only [anyCall, ha hs.1.2 (AllOk.of_checkArguments hargs), hrest]
          rfl
      | memberExpression member =>
          obtain ⟨t', hhead, -⟩ := bind_eq_ok.mp ht
          have hlen : a.length ≤ 1 := Nat.le_of_eq (by simpa using hs.1.1)
          simp only [anyCall, ha hs.1.2 (AllOk.of_headType hlen hhead), hrest]
          rfl
      | unaryExpression op =>
          obtain ⟨t', hhead, -⟩ := bind_eq_ok.mp ht
          have hlen : a.length ≤ 1 := Nat.le_of_eq (by simpa using hs.1.1)
          simp only [anyCall, ha hs.1.2 (AllOk.of_headType hlen hhead), hrest]
          rfl
      | _ => simp at hs
  | two kind a b n ha hb hn =>
      simp only [expressionShape, Bool.and_eq_true] at hs
      have hrest := hn hs.2 fun m hm => hok m (List.mem_cons_of_mem _ hm)
      obtain ⟨t, ht⟩ := hok _ List.mem_cons_self
      -- Both operands are single and were typed from left to right.
      have both : ∀ {f : TypeKind → TypeKind → Check TypeKind}, a.length = 1 → b.length = 1 →
          (do let l ← headType (exprTypes tc a); let r ← headType (exprTypes tc b); f l r) = .ok t →
          anyCall (listedCall tc) (.two kind a b n) = false := by
        intro f hla hlb hf
        obtain ⟨l, hl, hf⟩ := bind_eq_ok.mp hf
        obtain ⟨r, hr, -⟩ := bind_eq_ok.mp hf
        simp only [anyCall, ha hs.1.1.2 (AllOk.of_headType (Nat.le_of_eq hla) hl),
          hb hs.1.2 (AllOk.of_headType (Nat.le_of_eq hlb) hr), hrest]
        rfl
      cases kind with
      | indexExpression =>
          have hlen : a.length = 1 ∧ b.length = 1 := by simpa using hs.1.1.1
          exact both hlen.1 hlen.2 ht
      | binaryExpression op =>
          have hlen : a.length = 1 ∧ b.length = 1 := by simpa using hs.1.1.1
          exact both hlen.1 hlen.2 ht
      | _ => simp at hs
  | ifStatement c t e n => simp at hs

/-! ## Statements -/

/-- The checker is inside an unsafe block. -/
def TypeChecker.inside (tc : TypeChecker) : Bool := decide (0 < tc.unsafeDepth)

theorem SameContext.tables {tc tc' : TypeChecker} (h : SameContext tc tc') : tc'.tables = tc.tables := by
  unfold SameContext at h
  rw [h]
  rfl

theorem SameContext.inside {tc tc' : TypeChecker} (h : SameContext tc tc') : tc'.inside = tc.inside := by
  unfold SameContext at h
  rw [h]
  rfl

/-- An expression statement: what the list and the flag do not tell are the two missing names. -/
theorem expression_confined {tc : TypeChecker} {e : AstNode} (hs : expressionShape e = true)
    (hok : AllOk (exprTypes tc e)) (hmsr : (tc.inside || !anyCall (msrCall tc.tables) e) = true) :
    (tc.inside || !anyCall (unsafeCall tc.tables) e) = true := by
  rcases Nat.eq_zero_or_pos tc.unsafeDepth with hd | hd
  · have hin : tc.inside = false := by simp [TypeChecker.inside, hd]
    rw [hin, Bool.false_or, Bool.not_eq_true'] at hmsr ⊢
    have hlisted : anyCall (listedCall tc.tables) e = false := anyCall_listedCall hd e hs hok
    rw [anyCall_or (unsafeCall_eq tc.tables), hmsr, hlisted]
    rfl
  · have hin : tc.inside = true := by simp [TypeChecker.inside, hd]
    rw [hin]
    rfl

/-- The same for one operand. -/
theorem operand_confined {tc : TypeChecker} {e : AstNode} {t : TypeKind} (hs : operandShape e = true)
    (hok : exprType tc e = .ok t) (hmsr : (tc.inside || !anyCall (msrCall tc.tables) e) = true) :
    (tc.inside || !anyCall (unsafeCall tc.tables) e) = true := by
  simp only [operandShape, Bool.and_eq_true, beq_iff_eq] at hs
  exact expression_confined hs.2 (AllOk.of_headType (Nat.le_of_eq hs.1) hok) hmsr

/-- **What the checker accepts is confined**, up to the missing names and to functions declared inside an
    unsafe block. The counter says the same as the walk: outside such functions it is zero exactly where
    no unsafe block of the current function is open. -/
theorem Checked.confined {tc tc' : TypeChecker} {n n' : AstNode} (h : Checked tc n tc' n')
    (hs : statementShape n = true) (hmsr : confined msrCall false n tc.tables tc.inside = true)
    (hnested : nestedConfined n tc.tables tc.inside = true) :
    confined unsafeCall true n tc.tables tc.inside = true := by
  induction h with
  | null => rfl
  | @leaf tc tc' kind n n' test rest ih =>
      simp only [statementShape, Vnt.confined, nestedConfined, Bool.and_eq_true] at hs hmsr hnested ⊢
      refine ⟨?_, ih hs.2 hmsr.2 hnested⟩
      cases kind with
      | asmStatement text v =>
          have hd : tc.unsafeDepth ≠ 0 := failIf_eq_ok.mp test
          simp [TypeChecker.inside, Nat.pos_of_ne_zero hd]
      | _ => rfl
  | @declaration tc tc₁ tc' name declared b value t n n' value_ok store rest ih =>
      have hc := sameContext_checkDeclaration store
      have htables : (tc₁.logSymbol name).tables = tc.tables := hc.tables
      have hinside : (tc₁.logSymbol name).inside = tc.inside := hc.inside
      rw [htables, hinside] at ih
      simp only [statementShape, Vnt.confined, nestedConfined, anyCall, Bool.and_eq_true, Bool.true_and,
        Bool.false_or, Bool.or_false] at hs hmsr hnested ⊢
      exact ⟨operand_confined hs.1 value_ok hmsr.1, ih hs.2 hmsr.2 hnested⟩
  | print value_ok rest ih =>
      simp only [statementShape, Vnt.confined, nestedConfined, anyCall, Bool.and_eq_true, Bool.true_and,
        Bool.false_or, Bool.or_false] at hs hmsr hnested ⊢
      exact ⟨operand_confined hs.1 value_ok hmsr.1, ih hs.2 hmsr.2 hnested⟩
  | @returnStatement tc tc' e t n n' inside value_ok rest ih =>
      simp only [statementShape, Vnt.confined, nestedConfined, anyCall, Bool.and_eq_true, Bool.true_and,
        Bool.false_or, Bool.or_false] at hs hmsr hnested ⊢
      refine ⟨?_, ih hs.2 hmsr.2 hnested⟩
      rcases Bool.or_eq_true _ _ ▸ hs.1 with hnull | hop
      · rw [eq_of_beq hnull]
        simp [anyCall]
      · exact operand_confined hop value_ok hmsr.1
  | @call tc tc' name args t n n' value_ok rest ih =>
      simp only [statementShape, Vnt.confined, nestedConfined, Bool.and_eq_true, Bool.true_and]
        at hs hmsr hnested ⊢
      refine ⟨operand_confined ?_ value_ok hmsr.1, ih hs.2 hmsr.2 hnested⟩
      simp [operandShape, AstNode.length, hs.1]
  | @unsafeBlock tc inner tc' body body' n n' block rest ihb ih =>
      simp only [statementShape, Vnt.confined, nestedConfined, Bool.and_eq_true] at hs hmsr hnested ⊢
      have hin : (enterUnsafe tc).inside = true := by simp [TypeChecker.inside, enterUnsafe]
      rw [hin] at ihb
      exact ⟨ihb hs.1 hmsr.1 hnested.1, ih hs.2 hmsr.2 hnested.2⟩
  | @function tc tc₂ inner tc' header body body' n n' parameters block rest ihb ih =>
      simp only [statementShape, Vnt.confined, nestedConfined, Bool.and_eq_true] at hs hmsr hnested ⊢
      refine ⟨?_, ih hs.2 hmsr.2 hnested.2⟩
      have hc := sameContext_declareParameters parameters
      have htables : tc₂.tables = (enterFunction tc header).tables := hc.tables
      have hinside : tc₂.inside = tc.inside := hc.inside
      rw [htables, hinside] at ihb
      -- Declared inside an unsafe block, the body is confined by assumption; elsewhere the counter is
      -- zero and the body is checked as a chain of its own.
      cases hin : tc.inside with
      | true =>
          rw [hin, if_pos rfl] at hnested
          exact hnested.1
      | false =>
          rw [hin] at hnested ihb
          exact ihb hs.1 hmsr.1 hnested.1
  | @inertOne tc tc' kind child n n' inert rest ih =>
      cases kind <;> simp [AstOne.isInert] at inert hs
  | @assignment tc tc' target value t v n n' target_ok value_ok rest ih =>
      simp only [statementShape, Vnt.confined, nestedConfined, Bool.and_eq_true, Bool.true_and]
        at hs hmsr hnested ⊢
      refine ⟨?_, ih hs.2 hmsr.2 hnested⟩
      have split : ∀ (x a b : Bool), (x || !(a || b)) = true ↔ (x || !a) = true ∧ (x || !b) = true := by
        decide
      rw [split] at hmsr ⊢
      exact ⟨operand_confined hs.1.1 target_ok hmsr.1.1, operand_confined hs.1.2 value_ok hmsr.1.2⟩
  | @whileStatement tc inner tc' c t body body' n n' condition_ok block rest ihb ih =>
      simp only [statementShape, Vnt.confined, nestedConfined, Bool.and_eq_true] at hs hmsr hnested ⊢
      exact ⟨⟨operand_confined hs.1.1 condition_ok hmsr.1.1, ihb hs.1.2 hmsr.1.2 hnested.1⟩,
        ih hs.2 hmsr.2 hnested.2⟩
  | @inertTwo tc tc' kind a b n n' inert rest ih =>
      cases kind <;> simp [AstTwo.isInert] at inert hs
  | @ifStatement tc first restored second tc' c ty t t' e e' n n' condition_ok thenBlock restore elseBlock
      rest iht ihe ih =>
      subst restore
      simp only [statementShape, Vnt.confined, nestedConfined, Bool.and_eq_true] at hs hmsr hnested ⊢
      exact ⟨⟨⟨operand_confined hs.1.1.1 condition_ok hmsr.1.1.1, iht hs.1.1.2 hmsr.1.1.2 hnested.1.1⟩,
        ihe hs.1.2 hmsr.1.2 hnested.1.2⟩, ih hs.2 hmsr.2 hnested.2⟩

/-! ## The condition is exact -/

theorem anyCall_mono {p q : String → Nat → Bool} (h : ∀ name argc, p name argc = true → q name argc = true)
    (e : AstNode) (hp : anyCall p e = true) : anyCall q e = true := by
  have hor : ∀ name argc, q name argc = (q name argc || p name argc) := by
    intro name argc
    have := h name argc
    cases hpn : p name argc <;> simp_all
  rw [anyCall_or hor, hp, Bool.or_true]

/-- Confining fewer operations asks less. -/
theorem confined_mono {p q : TypeChecker → String → Nat → Bool}
    (h : ∀ tc name argc, p tc name argc = true → q tc name argc = true) (n : AstNode) :
    ∀ tc inside, confined q true n tc inside = true → confined p false n tc inside = true := by
  have calls : ∀ {tc : TypeChecker} {inside : Bool} {e : AstNode},
      (inside || !anyCall (q tc) e) = true → (inside || !anyCall (p tc) e) = true := by
    intro tc inside e he
    cases hin : inside with
    | true => rfl
    | false =>
        rw [hin, Bool.false_or, Bool.not_eq_true'] at he
        rw [Bool.false_or, Bool.not_eq_true']
        cases hp : anyCall (p tc) e with
        | false => rfl
        | true =>
            rw [anyCall_mono (h tc) e hp] at he
            cases he
  induction n with
  | null => exact fun _ _ _ => rfl
  | leaf kind n hn =>
      intro tc inside hq
      simp only [confined, Bool.and_eq_true] at hq ⊢
      refine ⟨?_, hn tc inside hq.2⟩
      cases kind <;> rfl
  | one kind a n ha hn =>
      intro tc inside hq
      simp only [confined, Bool.and_eq_true] at hq ⊢
      refine ⟨?_, hn tc inside hq.2⟩
      cases kind with
      | unsafeBlock => exact ha tc true hq.1
      | functionDeclaration header => exact ha _ false hq.1
      | _ => exact calls hq.1
  | two kind a b n ha hb hn =>
      intro tc inside hq
      simp only [confined, Bool.and_eq_true] at hq ⊢
      refine ⟨?_, hn tc inside hq.2⟩
      have both : (inside || !(anyCall (q tc) a || anyCall (q tc) b)) = true →
          (inside || !(anyCall (p tc) a || anyCall (p tc) b)) = true := by
        intro hab
        have split : ∀ (x a b : Bool), (x || !(a || b)) = true ↔ (x || !a) = true ∧ (x || !b) = true := by
          decide
        rw [split] at hab ⊢
        exact ⟨calls hab.1, calls hab.2⟩
      cases kind with
      | whileStatement =>
          simp only [Bool.and_eq_true] at hq ⊢
          exact ⟨calls hq.1.1, hb tc inside hq.1.2⟩
      | _ => exact both hq.1
  | ifStatement c t e n hc ht he hn =>
      intro tc inside hq
      simp only [confined, Bool.and_eq_true] at hq ⊢
      exact ⟨⟨⟨calls hq.1.1.1, ht tc inside hq.1.1.2⟩, he tc inside hq.1.2⟩, hn tc inside hq.2⟩

/-- Confinement reaches into functions wherever they are declared. -/
theorem nestedConfined_of_confined (n : AstNode) : ∀ tc inside,
    confined unsafeCall true n tc inside = true → nestedConfined n tc inside = true := by
  induction n with
  | null => exact fun _ _ _ => rfl
  | leaf kind n hn =>
      intro tc inside hq
      simp only [confined, Bool.and_eq_true] at hq
      exact hn tc inside hq.2
  | one kind a n ha hn =>
      intro tc inside hq
      simp only [confined, nestedConfined, Bool.and_eq_true] at hq ⊢
      refine ⟨?_, hn tc inside hq.2⟩
      cases kind with
      | unsafeBlock => exact ha tc true hq.1
      | functionDeclaration header =>
          cases inside with
          | true => exact hq.1
          | false => exact ha _ false hq.1
      | _ => rfl
  | two kind a b n ha hb hn =>
      intro tc inside hq
      simp only [confined, nestedConfined, Bool.and_eq_true] at hq ⊢
      refine ⟨?_, hn tc inside hq.2⟩
      cases kind with
      | whileStatement =>
          simp only [Bool.and_eq_true] at hq
          exact hb tc inside hq.1.2
      | _ => rfl
  | ifStatement c t e n hc ht he hn =>
      intro tc inside hq
      simp only [confined, nestedConfined, Bool.and_eq_true] at hq ⊢
      exact ⟨⟨ht tc inside hq.1.1.2, he tc inside hq.1.2⟩, hn tc inside hq.2⟩

/-- **When accepted programs are confined.** An accepted program is confined if and only if its calls of
    `cpu_read_msr` and `cpu_write_msr` are, and so is every function it declares inside an unsafe block. -/
theorem unsafeConfined_iff {ast ast' : AstNode} (hshape : programShape ast = true)
    (hcheck : vntTypecheck ast = .ok ast') :
    unsafeConfined ast = true ↔ msrConfined ast = true ∧ nestedFunctionsConfined ast = true := by
  obtain ⟨statements, next, tc, tc', statements', rfl, hc, hs, rfl⟩ := vntTypecheck_ok hcheck
  have htables : programTables statements = tc.tables := by simp only [programTables, hc]
  have hin : tc.inside = false := by rw [collectDeclarations_ok statements hc]; rfl
  have hstmts : statementShape statements = true := by
    unfold programShape at hshape
    split at hshape
    · rename_i heq
      cases heq
      exact hshape
    · cases hshape
  simp only [unsafeConfined, msrConfined, nestedFunctionsConfined, htables]
  have hchecked := hs.confined hstmts
  rw [hin] at hchecked
  constructor
  · intro h
    refine ⟨confined_mono (fun tc name argc hm => ?_) statements _ _ h,
      nestedConfined_of_confined statements _ _ h⟩
    rw [unsafeCall_eq, hm, Bool.true_or]
  · rintro ⟨hmsr, hnested⟩
    exact hchecked hmsr hnested

/-- `unsafe { x = cpu_read_msr(27) }`. -/
def confinedRead : AstNode :=
  .one .program
    (.one .unsafeBlock
      (.one (.variableDeclaration "x" none false)
        (.one (.functionCall "cpu_read_msr") (.leaf (.integerLiteral 27) .null) .null) .null)
      .null)
    .null

theorem confinedRead_confined :
    ∃ ast', programShape confinedRead = true ∧ vntTypecheck confinedRead = .ok ast' ∧
      unsafeConfined confinedRead = true := by
  have hok : ∃ ast', vntTypecheck confinedRead = .ok ast' := by
    cases h : vntTypecheck confinedRead with
    | ok ast' => exact ⟨ast', rfl⟩
    | error e =>
        have : (vntTypecheck confinedRead).toOption.isSome = true := by decide +kernel
        rw [h] at this
        cases this
  obtain ⟨ast', hc⟩ := hok
  have hshape : programShape confinedRead = true := by decide +kernel
  exact ⟨ast', hshape, hc, (unsafeConfined_iff hshape hc).mpr ⟨by decide +kernel, by decide +kernel⟩⟩

/-- `x = cpu_read_msr(27)`. -/
def msrRead : AstNode :=
  .one .program
    (.one (.variableDeclaration "x" none false)
      (.one (.functionCall "cpu_read_msr") (.leaf (.integerLiteral 27) .null) .null) .null)
    .null

/-- `unsafe { fun halt() { asm("hlt") } }`. -/
def nestedAssembly : AstNode :=
  .one .program
    (.one .unsafeBlock
      (.one (.functionDeclaration { name := "halt", parameters := [], returnType := none, isUnsafe := false })
        (.leaf (.asmStatement "hlt" false) .null) .null)
      .null)
    .null

/-- Both gaps are open: the checker accepts a model-specific register read outside any unsafe block, and
    inline assembly in a function that has none. -/
theorem msrRead_unconfined :
    ((vntTypecheck msrRead).toOption.isSome = true ∧ programShape msrRead = true ∧
      unsafeConfined msrRead = false) ∧
    ((vntTypecheck nestedAssembly).toOption.isSome = true ∧ programShape nestedAssembly = true ∧
      unsafeConfined nestedAssembly = false) := by
  decide +kernel

end Vnt
