import Vnt.Front.Checked
import Vnt.Ir.OptimizeCorrect
import Vnt.Ir.Outline

/-!
# `Compile.Accepted` — what reaches the optimizer

`compile_mode` hands a tree to the type checker, the lowering and the optimizer in turn. The optimizer
relies on one thing the checker guarantees: the top level holds no `return`, `break` or `continue`, so
nothing of it is ever cut off.
-/

namespace Vnt

/-! ## The top level stays open -/

def Top.isExit : Top → Bool
  | .exit => true
  | _ => false

/-- Which of the root's children are exits. -/
def Hir.exits (h : Hir) : List Bool := h.tops.map Top.isExit

theorem Hir.noExit_iff (h : Hir) : h.noExit ↔ ∀ b ∈ h.exits, b = false := by
  unfold Hir.noExit Hir.exits
  simp only [List.forall_mem_map]
  refine forall₂_congr fun t _ => ?_
  cases t <;> simp [Top.isExit]

@[simp] theorem Hir.exits_nil : Hir.nil.exits = [] := rfl

@[simp] theorem Hir.exits_leaf (i : Nat) (op : HirLeaf) (n : Hir) :
    (Hir.leaf i op n).exits = op.isExit :: n.exits := by
  cases op <;> rfl

@[simp] theorem Hir.exits_one (i : Nat) (op : HirOne) (a n : Hir) :
    (Hir.one i op a n).exits = op.isExit :: n.exits := by
  cases op <;> rfl

@[simp] theorem Hir.exits_two (i : Nat) (op : HirTwo) (a b n : Hir) :
    (Hir.two i op a b n).exits = false :: n.exits := rfl

@[simp] theorem Hir.exits_ifNode (i : Nat) (c t e n : Hir) :
    (Hir.ifNode i c t e n).exits = false :: n.exits := rfl

/-- Exits can be read off the outline. -/
theorem Hir.exits_outline (h : Hir) : h.outline.exits = h.exits := by
  induction h with
  | nil => rfl
  | leaf i op n hn => cases op <;> simp [HirLeaf.outline, HirLeaf.isExit, hn]
  | one i op a n _ hn => cases op <;> simp [HirOne.outline, HirOne.isExit, hn]
  | two i op a b n _ _ hn => simp [hn]
  | ifNode i c t e n _ _ _ hn => simp [hn]

theorem isExit_of_checkLeaf {tc : TypeChecker} {kind : AstLeaf} (h : checkLeaf tc kind = .ok ())
    (hl : tc.loopDepth = 0) : (lowerLeaf kind).isExit = false := by
  cases kind with
  | breakStatement => exact absurd hl (failIf_eq_ok.mp h)
  | continueStatement => exact absurd hl (failIf_eq_ok.mp h)
  | _ => rfl

/-- Outside functions and loops the checker lets no exit pass. -/
theorem Checked.noExit {tc tc' : TypeChecker} {n n' : AstNode} (h : Checked tc n tc' n')
    (hf : tc.inFunction = false) (hl : tc.loopDepth = 0) : ∀ b ∈ (lowerList n').exits, b = false := by
  induction h with
  | null => simp
  | leaf test rest ih =>
      simp only [lowerList, Hir.exits_leaf, isExit_of_checkLeaf test hl, List.forall_mem_cons]
      exact ⟨trivial, ih hf hl⟩
  | @declaration tc tc₁ tc' name declared b value t n n' value_ok store rest ih =>
      have hs := sameContext_checkDeclaration store
      unfold SameContext at hs
      have hf' : tc₁.inFunction = false := by rw [hs]; exact hf
      have hl' : tc₁.loopDepth = 0 := by rw [hs]; exact hl
      simp only [lowerList, Hir.exits_one, List.forall_mem_cons]
      refine ⟨?_, ih hf' hl'⟩
      simp only [lowerOpcode]
      split <;> rfl
  | returnStatement inside => simp [inside] at hf
  | @inertOne tc tc' kind child n n' inert rest ih =>
      simp only [lowerList, Hir.exits_one, List.forall_mem_cons]
      refine ⟨?_, ih hf hl⟩
      cases kind <;> first | rfl | simp [AstOne.isInert] at inert
  | @inertTwo tc tc' kind a b n n' inert rest ih =>
      cases kind <;> exact List.forall_mem_cons.mpr ⟨rfl, ih hf hl⟩
  | ifStatement condition_ok thenBlock restore elseBlock rest _ _ ih =>
      subst restore
      exact List.forall_mem_cons.mpr ⟨rfl, ih hf hl⟩
  | print value_ok rest ih => exact List.forall_mem_cons.mpr ⟨rfl, ih hf hl⟩
  | call value_ok rest ih => exact List.forall_mem_cons.mpr ⟨rfl, ih hf hl⟩
  | unsafeBlock block rest _ ih => exact List.forall_mem_cons.mpr ⟨rfl, ih hf hl⟩
  | function parameters block rest _ ih => exact List.forall_mem_cons.mpr ⟨rfl, ih hf hl⟩
  | assignment target_ok value_ok rest ih => exact List.forall_mem_cons.mpr ⟨rfl, ih hf hl⟩
  | whileStatement condition_ok block rest _ ih => exact List.forall_mem_cons.mpr ⟨rfl, ih hf hl⟩

/-- **The root of an accepted program is open.** -/
theorem isOpenRoot_of_accepted {ast ast' : AstNode} {ir : Hir} (hcheck : vntTypecheck ast = .ok ast')
    (hlower : vntIrLower ast' = some ir) : IsOpenRoot ir := by
  obtain ⟨statements, next, tc, tc', statements', rfl, hc, hs, rfl⟩ := vntTypecheck_ok hcheck
  obtain ⟨a, ha, rfl, -⟩ := vntIrLower_ok hlower
  refine ⟨0, a, .nil, rfl, (Hir.noExit_iff a).mpr ?_⟩
  rw [← Hir.exits_outline, ha, Hir.exits_outline]
  have htc := collectDeclarations_ok statements hc
  exact hs.noExit (by rw [htc]; rfl) (by rw [htc]; rfl)

/-! ## The front half of `compile_mode` -/

/-- The HIR of a program before and after optimization, if the checker, the lowering and the optimizer
    accept it. -/
def frontHalf (f : FloatUnit) (ast : AstNode) : Option (Hir × Hir) := do
  let ast' ← (vntTypecheck ast).toOption
  let ir ← vntIrLower ast'
  let ir' ← vntIrOptimize f ir
  some (ir, ir')

theorem frontHalf_eq_some {f : FloatUnit} {ast : AstNode} {ir ir' : Hir} :
    frontHalf f ast = some (ir, ir') ↔
      ∃ ast', vntTypecheck ast = .ok ast' ∧ vntIrLower ast' = some ir ∧ vntIrOptimize f ir = some ir' := by
  simp only [frontHalf, bind, Option.bind_eq_some_iff, Option.some.injEq, Prod.mk.injEq]
  constructor
  · rintro ⟨ast', hc, ir₁, hl, ir₂, ho, rfl, rfl⟩
    refine ⟨ast', ?_, hl, ho⟩
    cases h : vntTypecheck ast with
    | error e => rw [h] at hc; cases hc
    | ok a => rw [h] at hc; cases hc; rfl
  · rintro ⟨ast', hc, hl, ho⟩
    exact ⟨ast', by rw [hc]; rfl, ir, hl, ir', ho, rfl, rfl⟩

/-!
## Optimized programs run as written

The optimizer preserves the observable run of every accepted program in which propagation meets no stale
fact, and there is an accepted program in which it does: a block in an arm is compiled with the value a
variable had before the arm.
-/

/-! ## A host for small programs -/

/-- Doubles that no small program uses. -/
def noFloats : FloatUnit where
  add x _ := x
  sub x _ := x
  mul x _ := x
  div x _ := x
  neg x := x
  eq x y := x == y
  lt _ _ := false
  le x y := x == y
  isZero _ := false
  isFinite _ := true

/-- A runtime with strings, `len` and printing of integers and strings; the rest is a runtime error. -/
def textHost : Host Unit String where
  float := noFloats
  string text := pure (.boxed text)
  arrayNew := throw (.runtimeError "no arrays")
  arrayPush _ _ := throw (.runtimeError "no arrays")
  arrayGet _ _ := throw (.runtimeError "no arrays")
  arraySet _ _ _ := throw (.runtimeError "no arrays")
  objectGet _ _ := throw (.runtimeError "no objects")
  objectSet _ _ _ := throw (.runtimeError "no objects")
  structNew _ := throw (.runtimeError "no structs")
  unary _ _ := throw (.runtimeError "arithmetic requires numbers.")
  binary _ _ _ := throw (.runtimeError "arithmetic requires numbers.")
  display
    | .int v, _ => toString v.toInt
    | .boxed text, _ => text
    | _, _ => "null"
  special _ := none
  builtin
    | "len" => some fun
        | [.boxed text] => pure (.int (Int64.ofNat text.length))
        | _ => throw (.runtimeError "len requires a string.")
    | _ => none
  asm _ _ := pure ()

/-! ## The theorem -/

/-- **Optimized code runs as written.** For an accepted program in which no round of propagation meets a
    stale fact, the run before and after `vnt_ir_optimize` shows the same events in the same order and the
    same end, at every clock: the same normal end or runtime error, or both run forever. -/
theorem vntIrOptimize_observe {H V : Type} (host : Host H V) {ast ast' : AstNode} {ir ir' : Hir}
    (hcheck : vntTypecheck ast = .ok ast') (hlower : vntIrLower ast' = some ir)
    (hopt : vntIrOptimize host.float ir = some ir')
    (hfresh : staleFreeRounds host.float 8 ir = true) (heap : H) (clock : Nat) :
    observe (run host heap ir' clock) = observe (run host heap ir clock) := by
  rw [vntIrOptimize_run hopt (isOpenRoot_of_accepted hcheck hlower) hfresh]

/-- `x = 20`, `print(x + 22)`. -/
def additionProgram : AstNode :=
  .one .program
    (.one (.variableDeclaration "x" none false) (.leaf (.integerLiteral 20) .null)
    (.one .printStatement
      (.two (.binaryExpression .add) (.leaf (.variable "x") .null) (.leaf (.integerLiteral 22) .null) .null)
      .null))
    .null

theorem additionProgram_observe :
    ∃ ast' ir ir', vntTypecheck additionProgram = .ok ast' ∧ vntIrLower ast' = some ir ∧
      vntIrOptimize textHost.float ir = some ir' ∧ staleFreeRounds textHost.float 8 ir = true ∧
      observe (run textHost () ir' 0) = observe (run textHost () ir 0) := by
  have hp : ∃ p, frontHalf textHost.float additionProgram = some p ∧
      staleFreeRounds textHost.float 8 p.1 = true :=
    ⟨(frontHalf textHost.float additionProgram).get (by decide +kernel), Option.some_get _ |>.symm,
      by decide +kernel⟩
  obtain ⟨⟨ir, ir'⟩, hfront, hs⟩ := hp
  obtain ⟨ast', hc, hl, ho⟩ := frontHalf_eq_some.mp hfront
  exact ⟨ast', ir, ir', hc, hl, ho, hs, vntIrOptimize_observe textHost hc hl ho hs () 0⟩

/-! ## The stale fact -/

/-- `c = len("") == 0`, `x = 1`, `if c { x = 2  unsafe { print(x) } }`. -/
def staleBlock : AstNode :=
  .one .program
    (.one (.variableDeclaration "c" none false)
      (.two (.binaryExpression .equal)
        (.one (.functionCall "len") (.leaf (.stringLiteral "") .null) .null)
        (.leaf (.integerLiteral 0) .null) .null)
    (.one (.variableDeclaration "x" none false) (.leaf (.integerLiteral 1) .null)
    (.ifStatement (.leaf (.variable "c") .null)
      (.one (.variableDeclaration "x" none false) (.leaf (.integerLiteral 2) .null)
      (.one .unsafeBlock (.one .printStatement (.leaf (.variable "x") .null) .null) .null))
      .null .null)))
    .null

/-- The block is compiled with the value from before the arm: as written the program prints 2, optimized
    it prints 1. -/
theorem staleBlock_observe :
    ∃ ast' ir ir', vntTypecheck staleBlock = .ok ast' ∧ vntIrLower ast' = some ir ∧
      vntIrOptimize textHost.float ir = some ir' ∧
      observe (run textHost () ir 0) = ([.call "len" [.boxed ""], .print "2"], .ended) ∧
      observe (run textHost () ir' 0) = ([.call "len" [.boxed ""], .print "1"], .ended) := by
  have hp : ∃ p, frontHalf textHost.float staleBlock = some p ∧
      observe (run textHost () p.1 0) = ([.call "len" [.boxed ""], .print "2"], .ended) ∧
      observe (run textHost () p.2 0) = ([.call "len" [.boxed ""], .print "1"], .ended) :=
    ⟨(frontHalf textHost.float staleBlock).get (by decide +kernel), Option.some_get _ |>.symm,
      by decide +kernel, by decide +kernel⟩
  obtain ⟨⟨ir, ir'⟩, hfront, hbefore, hafter⟩ := hp
  obtain ⟨ast', hc, hl, ho⟩ := frontHalf_eq_some.mp hfront
  exact ⟨ast', ir, ir', hc, hl, ho, hbefore, hafter⟩

end Vnt
