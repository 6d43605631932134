import Vnt.Ir.Frame

/-!
# `Ir.Propagate` — constant propagation under its facts

A known constant is a fact about the memory: the variable's storage holds that constant. `Facts` states
it for the variables of a set `Z`, and the correctness statement of every function of the pass is an
agreement from the facts before to the facts after.

The pass gets one thing wrong: it analyses each block in an arm of an `IF` with the facts that hold
before the arm, although statements of the same arm run in between. `staleFree` is the walk of the pass
that asks, at each such block, whether a constant the block could be given is one that an earlier
statement of the arm may overwrite.
-/

namespace Vnt

open Lib

variable {H V : Type} {ctx : Ctx H V}

/-! ## Environments -/

/-- `env'` knows no more than `env`. -/
def EnvLe (env' env : HirConstantEnvironment) : Prop :=
  ∀ x c, hirConstantFind env' x = some c → hirConstantFind env x = some c

theorem EnvLe.refl (env : HirConstantEnvironment) : EnvLe env env := fun _ _ h => h

theorem EnvLe.trans {env env' env'' : HirConstantEnvironment} (h : EnvLe env'' env') (h' : EnvLe env' env) :
    EnvLe env'' env := fun x c hx => h' x c (h x c hx)

theorem EnvLe.nil (env : HirConstantEnvironment) : EnvLe [] env := fun _ _ h => by
  simp [hirConstantFind] at h

theorem hirConstantFind_invalidate (env : HirConstantEnvironment) (x y : String) :
    hirConstantFind (hirConstantInvalidate env x) y = if y = x then none else hirConstantFind env y := by
  unfold hirConstantFind hirConstantInvalidate
  induction env with
  | nil => simp
  | cons p env ih =>
      obtain ⟨z, c⟩ := p
      by_cases hz : z = x
      · rw [List.filter_cons_of_neg (by simpa using hz), ih, List.lookup_cons]
        by_cases hy : y = x
        · simp [hy]
        · rw [if_neg hy, if_neg hy, beq_false_of_ne (by rwa [hz])]
      · rw [List.filter_cons_of_pos (by simpa using hz), List.lookup_cons, List.lookup_cons, ih]
        by_cases hy : y = z
        · simp [hy, hz]
        · rw [beq_false_of_ne hy]

theorem EnvLe.invalidate (env : HirConstantEnvironment) (x : String) :
    EnvLe (hirConstantInvalidate env x) env := by
  intro y c h
  rw [hirConstantFind_invalidate] at h
  split at h
  · exact absurd h (by simp)
  · exact h

theorem EnvLe.afterWrite (target : Hir) (env : HirConstantEnvironment) :
    EnvLe (envAfterWrite target env) env := by
  unfold envAfterWrite
  split
  · exact EnvLe.invalidate env _
  · exact EnvLe.nil env

/-- Substitution only ever forgets. -/
theorem EnvLe.substitute (h : Hir) : ∀ env, EnvLe (hirSubstituteExpression h env).2.1 env := by
  induction h with
  | nil => exact EnvLe.refl
  | leaf i op n hn =>
      intro env
      cases op with
      | «variable» x =>
          simp only [hirSubstituteExpression]
          split <;> exact hn env
      | _ => exact hn env
  | one i op a n ha hn =>
      intro env
      have htail := (hn (hirSubstituteExpression a env).2.1).trans (ha env)
      cases op with
      | call f => exact (hn []).trans (EnvLe.nil env)
      | unary u =>
          cases u with
          | reference => exact hn env
          | _ => exact htail
      | _ => exact htail
  | two i op a b n ha hb hn =>
      intro env
      have htail := (hn (hirSubstituteExpression b (hirSubstituteExpression a env).2.1).2.1).trans
        ((hb (hirSubstituteExpression a env).2.1).trans (ha env))
      cases op with
      | assign => exact (hn _).trans (EnvLe.afterWrite a env)
      | _ => exact htail
  | ifNode i c t e n hc ht he hn =>
      intro env
      exact (hn _).trans ((he _).trans ((ht _).trans (hc env)))

/-! ## Facts -/

/-- The known constants of `env` are what the memory holds, for the variables in `Z`. -/
def Facts (ctx : Ctx H V) (env : HirConstantEnvironment) (Z : String → Prop) (s : State H V) : Prop :=
  ∀ x c, hirConstantFind env x = some c → Z x → s.vars (ctx.addr x) = some c.toValue

theorem Facts.mono {env env' : HirConstantEnvironment} {Z : String → Prop} {s : State H V}
    (h : Facts ctx env Z s) (hle : EnvLe env' env) : Facts ctx env' Z s :=
  fun x c hx hZ => h x c (hle x c hx) hZ

theorem Facts.nil {Z : String → Prop} {s : State H V} : Facts ctx [] Z s :=
  fun _ _ h => absurd h (by simp [hirConstantFind])

/-- Code that leaves the variables of the facts alone keeps the facts. -/
theorem Facts.keeps {α : Type} {env : HirConstantEnvironment} {Z : String → Prop} {m : M H V α}
    (hm : ∀ x, Z x → Untouched (ctx.addr x) m) : Keeps (Facts ctx env Z) m fun _ => Facts ctx env Z := by
  intro s hs a s' h x c hx hZ
  rw [hm x hZ s a s' h]
  exact hs x c hx hZ

/-- The shape of most steps: the same code, which touches no variable. -/
theorem Facts.agree {α : Type} {env : HirConstantEnvironment} {Z : String → Prop} {m : M H V α}
    (hm : ∀ a, Untouched a m) : Agree (Facts ctx env Z) m m fun _ => Facts ctx env Z :=
  Agree.refl (Facts.keeps fun _ _ => hm _)

theorem agree_true {α : Type} {P : State H V → Prop} (m : M H V α) : Agree P m m fun _ _ => True :=
  Agree.refl fun _ _ _ _ _ => trivial

/-! ## Expressions -/

/-- What a chain `ms` of expressions computes agrees entry by entry with `ms'` as the facts go from `env`
    to `env'`. -/
inductive AgreeAll (ctx : Ctx H V) (Z : String → Prop) : HirConstantEnvironment →
    List (M H V (Value V)) → List (M H V (Value V)) → HirConstantEnvironment → Prop
  | nil {env : HirConstantEnvironment} : AgreeAll ctx Z env [] [] env
  | cons {env env₁ env₂ : HirConstantEnvironment} {m m' : M H V (Value V)} {ms ms' : List (M H V (Value V))}
      (head : Agree (Facts ctx env Z) m m' fun _ => Facts ctx env₁ Z)
      (tail : AgreeAll ctx Z env₁ ms ms' env₂) (le : EnvLe env₂ env₁) :
      AgreeAll ctx Z env (m :: ms) (m' :: ms') env₂

namespace AgreeAll

variable {Z : String → Prop} {env env' : HirConstantEnvironment} {ms ms' : List (M H V (Value V))}

theorem first (h : AgreeAll ctx Z env ms ms' env') :
    Agree (Facts ctx env Z) (first ms) (Vnt.first ms') fun _ => Facts ctx env' Z := by
  cases h with
  | nil => exact Agree.throw
  | cons head tail le => exact head.conseq (fun _ hs => hs) fun _ _ hs => hs.mono le

theorem seqAll (h : AgreeAll ctx Z env ms ms' env') :
    Agree (Facts ctx env Z) (seqAll ms) (Vnt.seqAll ms') fun _ => Facts ctx env' Z := by
  induction h with
  | nil => exact Facts.agree fun _ => Untouched.pure _
  | cons head tail le ih => exact head.bind fun a => ih.bind fun as => Facts.agree fun _ => Untouched.pure _

theorem pushAll (h : AgreeAll ctx Z env ms ms' env') : ∀ array, Agree (Facts ctx env Z)
    (pushAll ctx.host ms array) (Vnt.pushAll ctx.host ms' array) fun _ => Facts ctx env' Z := by
  induction h with
  | nil => exact fun array => Facts.agree fun _ => Untouched.pure _
  | cons head tail le ih =>
      exact fun array => head.bind fun v =>
        (Facts.agree fun _ => Untouched.liftHost _).bind fun array' => ih array'

/-- A call may write anything, so nothing is known after it. -/
theorem callValue (h : AgreeAll ctx Z env ms ms' env') (f : String) :
    Agree (Facts ctx env Z) (callValue ctx f ms) (Vnt.callValue ctx f ms') fun _ _ => True := by
  have happly : ∀ g, Agree (Facts ctx env Z) (applyCall f g ms) (applyCall f g ms') fun _ _ => True :=
    fun g => h.seqAll.bind fun vs => agree_true _
  unfold Vnt.callValue
  split
  · exact happly _
  · split
    · exact agree_true _
    · split
      · exact happly _
      · exact happly _

/-- Any opcode other than a call and `&` on substituted operands. -/
theorem evalOne (h : AgreeAll ctx Z env ms ms' env') {op : HirOne} {a a' : Hir} (hcall : ∀ f, op ≠ .call f)
    (href : op ≠ .unary .reference) :
    Agree (Facts ctx env Z) (evalOne ctx op a ms) (Vnt.evalOne ctx op a' ms') fun _ =>
      Facts ctx env' Z := by
  cases op with
  | call f => exact absurd rfl (hcall f)
  | array => exact (Facts.agree fun _ => Untouched.liftHost _).bind fun array => h.pushAll array
  | member name => exact h.first.bind fun o => Facts.agree fun _ => Untouched.liftHost _
  | unary u =>
      cases u with
      | reference => exact absurd rfl href
      | dereference => exact h.first.bind fun r => Facts.agree fun _ => Untouched.deref r
      | not => exact h.first.bind fun v => Facts.agree fun _ => Untouched.unaryValue _ _ v
      | negate => exact h.first.bind fun v => Facts.agree fun _ => Untouched.unaryValue _ _ v
  | _ => exact Agree.throw

end AgreeAll

/-- Two operands in order; the right one of `&&` and `||` may be skipped. -/
theorem agree_evalTwo {Z : String → Prop} {env env₁ env₂ : HirConstantEnvironment}
    {l l' r r' : M H V (Value V)} (hl : Agree (Facts ctx env Z) l l' fun _ => Facts ctx env₁ Z)
    (hr : Agree (Facts ctx env₁ Z) r r' fun _ => Facts ctx env₂ Z) (hle : EnvLe env₂ env₁) (op : HirTwo) :
    Agree (Facts ctx env Z) (evalTwo ctx op l r) (evalTwo ctx op l' r') fun _ => Facts ctx env₂ Z := by
  have tail : Agree (Facts ctx env₁ Z) (do let v ← r; let b ← truth v; pure (.bool b) : M H V (Value V))
      (do let v ← r'; let b ← truth v; pure (.bool b)) fun _ => Facts ctx env₂ Z :=
    hr.bind fun v => (Facts.agree fun _ => Untouched.truth v).bind fun b =>
      Facts.agree fun _ => Untouched.pure _
  have skip : ∀ b, Agree (Facts ctx env₁ Z) (pure (.bool b) : M H V (Value V)) (pure (.bool b)) fun _ =>
      Facts ctx env₂ Z := fun b => Agree.refl (Keeps.pure fun _ hs => hs.mono hle)
  cases op with
  | index => exact hl.bind fun o => hr.bind fun i => Facts.agree fun _ => Untouched.liftHost _
  | binary u =>
      cases u with
      | and =>
          refine hl.bind fun v => (Facts.agree fun _ => Untouched.truth v).bind fun b => ?_
          cases b with
          | false => exact skip false
          | true => exact tail
      | or =>
          refine hl.bind fun v => (Facts.agree fun _ => Untouched.truth v).bind fun b => ?_
          cases b with
          | false => exact tail
          | true => exact skip true
      | _ => exact hl.bind fun v => hr.bind fun w => Facts.agree fun _ => Untouched.binaryValue _ _ v w
  | _ => exact Agree.throw

/-- Every variable that is read, by value or by address, in the chain. -/
def reads : Hir → List String
  | .nil => []
  | .leaf _ (.variable x) n => x :: reads n
  | .leaf _ _ n => reads n
  | .one _ _ a n => reads a ++ reads n
  | .two _ _ a b n => reads a ++ reads b ++ reads n
  | .ifNode _ c t e n => reads c ++ reads t ++ reads e ++ reads n

/-- A known constant in place of the variable. -/
theorem agree_readVar {Z : String → Prop} {env : HirConstantEnvironment} {x : String} {c : HirConstant}
    (hx : hirConstantFind env x = some c) (hZ : Z x) :
    Agree (Facts ctx env Z) (readVar (ctx.addr x)) (pure c.toValue) fun _ => Facts ctx env Z := by
  intro s hs
  have hv : readVar (ctx.addr x) s = .ok c.toValue s := by
    unfold readVar
    rw [hs x c hx hZ]
  refine ⟨hv, fun a s' h => ?_⟩
  rw [hv] at h
  cases h
  exact hs

/-- **Substitution into expressions is right under the facts.** -/
theorem agreeAll_hirSubstituteExpression (ctx : Ctx H V) (Z : String → Prop) (h : Hir) :
    ∀ env, (∀ x ∈ reads h, Z x) →
      AgreeAll ctx Z env (evals ctx h) (evals ctx (hirSubstituteExpression h env).1)
        (hirSubstituteExpression h env).2.1 := by
  induction h with
  | nil => exact fun env _ => .nil
  | leaf i op n hn =>
      intro env hZ
      cases op with
      | «variable» x =>
          simp only [reads, List.forall_mem_cons] at hZ
          simp only [hirSubstituteExpression]
          split
          · rename_i c hc
            refine .cons ?_ (hn env hZ.2) (EnvLe.substitute n env)
            rw [evalLeaf_toLeaf]
            exact agree_readVar hc hZ.1
          · exact .cons (Facts.agree fun _ => Untouched.readVar _) (hn env hZ.2) (EnvLe.substitute n env)
      | _ => exact .cons (Facts.agree fun _ => Untouched.evalLeaf _) (hn env hZ) (EnvLe.substitute n env)
  | one i op a n ha hn =>
      intro env hZ
      simp only [reads, List.forall_mem_append] at hZ
      have htail := hn (hirSubstituteExpression a env).2.1 hZ.2
      have hle := EnvLe.substitute n (hirSubstituteExpression a env).2.1
      cases op with
      | call f =>
          refine .cons (((ha env hZ.1).callValue f).conseq (fun _ hs => hs) fun _ _ _ => Facts.nil) ?_ ?_
          · exact hn [] hZ.2
          · exact EnvLe.substitute n []
      | unary u =>
          cases u with
          | reference =>
              exact .cons (Facts.agree fun _ => Untouched.reference _) (hn env hZ.2)
                (EnvLe.substitute n env)
          | _ => exact .cons ((ha env hZ.1).evalOne (by simp) (by simp)) htail hle
      | _ => exact .cons ((ha env hZ.1).evalOne (by simp) (by simp)) htail hle
  | two i op a b n ha hb hn =>
      intro env hZ
      simp only [reads, List.forall_mem_append] at hZ
      have hnode := fun op => agree_evalTwo (ha env hZ.1.1).first (hb _ hZ.1.2).first
        (EnvLe.substitute b _) op
      cases op with
      | assign => exact .cons Agree.throw (hn _ hZ.2) (EnvLe.substitute n _)
      | _ => exact .cons (hnode _) (hn _ hZ.2) (EnvLe.substitute n _)
  | ifNode i c t e n hc ht he hn =>
      intro env hZ
      simp only [reads, List.forall_mem_append] at hZ
      exact .cons Agree.throw (hn _ hZ.2) (EnvLe.substitute n _)

/-! ## The stale facts -/

mutual

/-- Walk a sequence as `hir_propagate_sequence` does and ask that no block is given a stale fact. -/
def staleFree : Hir → HirConstantEnvironment → Bool
  | .nil, _ => true
  | .leaf _ (.asm _ _) n, _ => staleFree n []
  | .leaf _ _ n, env => staleFree n env
  | .one _ (.function f names) a n, env =>
      staleFree n (envAfterOne (.function f names) (hirPropagateBody a).1 env)
  | .one _ .program a n, env =>
      let a' := hirPropagateSequence a env
      staleFree a env && staleFree n (envAfterOne .program a'.1 a'.2.1)
  | .one _ op a n, env =>
      let a' := hirSubstituteExpression a env
      staleFree n (envAfterOne op a'.1 a'.2.1)
  | .two _ .whileNode _ _ n, _ => staleFree n []
  | .two _ .assign a b n, env => staleFree n (envAfterTwo .assign a b env)
  | .two _ op a b n, env =>
      let a' := hirSubstituteExpression a env
      let b' := hirSubstituteExpression b a'.2.1
      staleFree n (envAfterTwo op a'.1 b'.1 b'.2.1)
  | .ifNode _ c t e n, env =>
      let c' := hirSubstituteExpression c env
      staleFreeArm t c'.2.1 (fun _ => true) && staleFreeArm e c'.2.1 (fun _ => true) && staleFree n []

/-- Walk one arm of an `IF`. The facts `env` are those from before the arm; `kept` are the variables that
    no statement of the arm passed so far may have written. A block may be given a fact about a variable it
    reads only if that variable is kept. -/
def staleFreeArm : Hir → HirConstantEnvironment → (String → Bool) → Bool
  | .nil, _, _ => true
  | .one i .program a n, env, kept =>
      (env.all fun p => kept p.1 || !(reads a).contains p.1) && staleFree a env &&
        staleFreeArm n env fun x => kept x && !mayWrite x (.one i .program a .nil)
  | .leaf i op n, env, kept => staleFreeArm n env fun x => kept x && !mayWrite x (.leaf i op .nil)
  | .one i op a n, env, kept => staleFreeArm n env fun x => kept x && !mayWrite x (.one i op a .nil)
  | .two i op a b n, env, kept => staleFreeArm n env fun x => kept x && !mayWrite x (.two i op a b .nil)
  | .ifNode i c t e n, env, kept =>
      staleFreeArm n env fun x => kept x && !mayWrite x (.ifNode i c t e .nil)

end

/-! ## Statements -/

/-- What the pass owes on a sequence. -/
def SequenceAgrees (ctx : Ctx H V) (h : Hir) : Prop :=
  ∀ (Z : String → Prop) env, (∀ x ∈ reads h, Z x) → staleFree h env = true →
    Agree (Facts ctx env Z) (runSeq (execs ctx h)) (runSeq (execs ctx (hirPropagateSequence h env).1))
      fun flow s => flow = .normal → Facts ctx (hirPropagateSequence h env).2.1 Z s

/-- What it owes on an arm. -/
def ArmAgrees (ctx : Ctx H V) (h : Hir) : Prop :=
  ∀ (Z : String → Prop) env kept, (∀ x ∈ reads h, Z x) → staleFreeArm h env kept = true →
    Agree (Facts ctx env fun x => Z x ∧ kept x = true) (runSeq (execs ctx h))
      (runSeq (execs ctx (hirPropagateArm h env).1)) fun _ _ => True

theorem agree_runSeq_cons {P R : State H V → Prop} {Q : Flow V → State H V → Prop} {m m' : M H V (Flow V)}
    {ms ms' : List (M H V (Flow V))} (hm : Agree P m m' fun flow s => flow = .normal → R s)
    (hms : Agree R (runSeq ms) (runSeq ms') Q) (hQ : ∀ flow s, flow ≠ .normal → Q flow s) :
    Agree P (runSeq (m :: ms)) (runSeq (m' :: ms')) Q := by
  refine hm.bind fun flow => ?_
  cases flow with
  | normal => exact hms.conseq (fun s hs => hs rfl) fun _ _ hq => hq
  | _ => exact Agree.refl (Keeps.pure fun s _ => hQ _ s (by simp))

/-- One statement, then the rest. -/
theorem agree_sequence_cons {Z : String → Prop} {env env₁ : HirConstantEnvironment} {m m' : M H V (Flow V)}
    {n : Hir} (hn : SequenceAgrees ctx n) (hZ : ∀ x ∈ reads n, Z x) (hs : staleFree n env₁ = true)
    (hm : Agree (Facts ctx env Z) m m' fun flow s => flow = .normal → Facts ctx env₁ Z s) :
    Agree (Facts ctx env Z) (runSeq (m :: execs ctx n))
      (runSeq (m' :: execs ctx (hirPropagateSequence n env₁).1))
      fun flow s => flow = .normal → Facts ctx (hirPropagateSequence n env₁).2.1 Z s :=
  agree_runSeq_cons hm (hn Z env₁ hZ hs) fun _ _ hf h => absurd h hf

/-- A statement that leaves the facts as they are. -/
theorem agree_statement {Z : String → Prop} {env env₁ : HirConstantEnvironment} {m : M H V (Flow V)}
    (hle : EnvLe env₁ env) (hm : ∀ a, Untouched a m) :
    Agree (Facts ctx env Z) m m fun flow s => flow = .normal → Facts ctx env₁ Z s :=
  (Facts.agree hm).conseq (fun _ hs => hs) fun _ _ hs _ => hs.mono hle

/-- A statement after which nothing is known. -/
theorem agree_clear {Z : String → Prop} {P : State H V → Prop} (m : M H V (Flow V)) :
    Agree P m m fun flow s => flow = .normal → Facts ctx [] Z s :=
  (agree_true m).conseq (fun _ hs => hs) fun _ _ _ _ => Facts.nil

/-- A store of a value that is known when it is a literal. -/
theorem agree_store {Z : String → Prop} {env env₁ : HirConstantEnvironment} {a a' : Hir}
    (h : AgreeAll ctx Z env (evals ctx a) (evals ctx a') env₁) (x : String) :
    Agree (Facts ctx env Z)
      (do let v ← first (evals ctx a); writeVar (ctx.addr x) v; pure .normal : M H V (Flow V))
      (do let v ← first (evals ctx a'); writeVar (ctx.addr x) v; pure .normal)
      fun flow s => flow = .normal → Facts ctx (envAfterStore x a' env₁) Z s := by
  have hval : Agree (Facts ctx env Z) (first (evals ctx a)) (first (evals ctx a')) fun v s =>
      Facts ctx env₁ Z s ∧ ∀ c, hirConstant a' = some c → v = c.toValue := by
    refine h.first.and_keeps fun s hs v s' hv c hc => ?_
    rw [(h.first s hs).1, first_evals_of_hirConstant hc] at hv
    cases hv
    rfl
  refine hval.bind fun v => Agree.refl ?_
  rintro s ⟨hf, hc⟩ flow s' hw -
  cases hw
  intro y d hy hZ
  show (if ctx.addr y = ctx.addr x then some v else s.vars (ctx.addr y)) = some d.toValue
  by_cases hyx : y = x
  · subst hyx
    unfold envAfterStore at hy
    split at hy
    · rename_i c hac
      simp only [hirConstantRemember, hirConstantFind, List.lookup_cons_self, Option.some.injEq] at hy
      rw [if_pos rfl, hc c hac, hy]
    · simp [hirConstantFind_invalidate] at hy
  · rw [if_neg fun e => hyx (ctx.addr_injective e)]
    refine hf y d ?_ hZ
    have hinv : hirConstantFind (hirConstantInvalidate env₁ x) y = hirConstantFind env₁ y := by
      rw [hirConstantFind_invalidate, if_neg hyx]
    unfold envAfterStore at hy
    split at hy
    · rwa [hirConstantRemember, hirConstantFind, List.lookup_cons, beq_false_of_ne hyx,
        ← hirConstantFind, hinv] at hy
    · rwa [hinv] at hy

/-- An assignment to a variable keeps the other facts. -/
theorem agree_assign {Z : String → Prop} {env : HirConstantEnvironment} (a b : Hir) :
    Agree (Facts ctx env Z) (execTwo ctx .assign a (evals ctx a) (evals ctx b) (execs ctx b))
      (execTwo ctx .assign a (evals ctx a) (evals ctx b) (execs ctx b))
      fun flow s => flow = .normal → Facts ctx (envAfterTwo .assign a b env) Z s := by
  unfold envAfterTwo
  split
  · exact agree_clear _
  · rename_i hcall
    simp only [hirContainsCall, Bool.or_false, Bool.not_eq_true, Bool.or_eq_false_iff] at hcall
    simp only [envAfterWrite]
    split
    · rename_i i x n
      refine Agree.refl ?_
      rintro s hs flow s' h - y c hy hZ
      rw [hirConstantFind_invalidate] at hy
      split at hy
      · exact absurd hy (by simp)
      · rename_i hyx
        have hw : writesThrough y (.leaf i (.variable x) n) = false := by
          simpa [writesThrough] using fun e => hyx e.symm
        have hu : Untouched (ctx.addr y) (do
            assign ctx (.leaf i (.variable x) n) (first (evals ctx b)); pure .normal : M H V (Flow V)) :=
          (Untouched.assign hw hcall.1 (Untouched.first (untouched_evals ctx _ b hcall.2))).bind
            fun _ => Untouched.pure _
        rw [hu s flow s' h]
        exact hs y c hy hZ
    · exact agree_clear _

/-- A return never ends normally. -/
theorem AgreeAll.returnNode {Z : String → Prop} {env env₁ : HirConstantEnvironment}
    {as as' : List (M H V (Value V))} (h : AgreeAll ctx Z env as as' env₁) (ms ms' : List (M H V (Flow V))) :
    Agree (Facts ctx env Z) (execOne ctx .returnNode as ms) (execOne ctx .returnNode as' ms')
      fun flow _ => flow ≠ .normal := by
  cases h with
  | nil => exact Agree.refl (Keeps.pure fun _ _ => by simp)
  | cons head tail le => exact head.bind fun v => Agree.refl (Keeps.pure fun _ _ => by simp)

/-- Any statement opcode on substituted operands. -/
theorem agree_execOne {Z : String → Prop} {env env₁ : HirConstantEnvironment} {a a' : Hir} {op : HirOne}
    (h : AgreeAll ctx Z env (evals ctx a) (evals ctx a') env₁) (hprog : op ≠ .program)
    (hfun : ∀ f names, op ≠ .function f names) (ms ms' : List (M H V (Flow V))) :
    Agree (Facts ctx env Z) (execOne ctx op (evals ctx a) ms) (execOne ctx op (evals ctx a') ms')
      fun flow s => flow = .normal → Facts ctx (envAfterOne op a' env₁) Z s := by
  have forget : ∀ {m m' : M H V (Flow V)}, hirContainsCall (.one 0 op a' .nil) = true →
      (Agree (Facts ctx env Z) m m' fun _ _ => True) →
      Agree (Facts ctx env Z) m m' fun flow s => flow = .normal → Facts ctx (envAfterOne op a' env₁) Z s := by
    intro m m' hc hm
    unfold envAfterOne
    rw [if_pos hc]
    exact hm.conseq (fun _ hs => hs) fun _ _ _ _ => Facts.nil
  have store : ∀ x, Agree (Facts ctx env Z)
      (do let v ← first (evals ctx a); writeVar (ctx.addr x) v; pure .normal : M H V (Flow V))
      (do let v ← first (evals ctx a'); writeVar (ctx.addr x) v; pure .normal)
      fun flow s => flow = .normal →
        Facts ctx (if hirContainsCall (.one 0 op a' .nil) then [] else envAfterStore x a' env₁) Z s := by
    intro x
    refine (agree_store h x).conseq (fun _ hs => hs) fun flow s hs hf => ?_
    split
    · exact Facts.nil
    · exact hs hf
  have keep : ∀ {s : State H V}, Facts ctx env₁ Z s →
      Facts ctx (if hirContainsCall (.one 0 op a' .nil) then [] else env₁) Z s := by
    intro s hs
    split
    · exact Facts.nil
    · exact hs
  cases op with
  | program => exact absurd rfl hprog
  | print =>
      refine h.first.bind fun v => (Facts.agree fun _ => Untouched.printValue _ v).bind fun _ => ?_
      exact Agree.refl (Keeps.pure fun s hs _ => keep hs)
  | variableDecl x t => exact store x
  | reassign x t => exact store x
  | call f =>
      refine forget (by simp [hirContainsCall]) ((h.callValue f).bind fun v => agree_true _)
  | returnNode => exact (h.returnNode ms ms').conseq (fun _ hs => hs) fun _ _ hf h => absurd h hf
  | function f names => exact absurd rfl (hfun f names)
  | _ => exact Agree.throw

theorem EnvLe.afterOne {op : HirOne} (a : Hir) (env : HirConstantEnvironment)
    (hop : ∀ x t, op ≠ .variableDecl x t ∧ op ≠ .reassign x t) : EnvLe (envAfterOne op a env) env := by
  unfold envAfterOne
  split
  · exact EnvLe.nil env
  · split
    · exact absurd rfl (hop _ _).1
    · exact absurd rfl (hop _ _).2
    · exact EnvLe.refl env

/-- A statement of an arm that the pass leaves alone, then the rest of the arm. -/
theorem agree_arm_cons {Z : String → Prop} {env : HirConstantEnvironment} {kept : String → Bool}
    {m m' : M H V (Flow V)} {n : Hir} (hn : ArmAgrees ctx n) (hZ : ∀ x ∈ reads n, Z x) {w : String → Bool}
    (hs : staleFreeArm n env (fun x => kept x && !w x) = true)
    (hm : Agree (Facts ctx env fun x => Z x ∧ kept x = true) m m' fun _ _ => True)
    (hw : ∀ x, w x = false → Untouched (ctx.addr x) m) :
    Agree (Facts ctx env fun x => Z x ∧ kept x = true) (runSeq (m :: execs ctx n))
      (runSeq (m' :: execs ctx (hirPropagateArm n env).1)) fun _ _ => True := by
  -- The facts about variables that `m` may write are given up, the others survive it.
  have hkeep : Keeps (Facts ctx env fun x => Z x ∧ kept x = true) m fun flow s =>
      flow = .normal → Facts ctx env (fun x => Z x ∧ (kept x && !w x) = true) s := by
    intro s hf flow s' h _ x c hx hZx
    simp only [Bool.and_eq_true, Bool.not_eq_true'] at hZx
    rw [hw x hZx.2.2 s flow s' h]
    exact hf x c hx ⟨hZx.1, hZx.2.1⟩
  have hm' := (hm.and_keeps hkeep).conseq (fun _ hs => hs) fun _ _ hq => hq.2
  exact agree_runSeq_cons hm' (hn Z env _ hZ hs) fun _ _ _ => trivial

/-- A block in an arm: it is given only facts that still hold. -/
theorem Facts.of_kept {Z : String → Prop} {env : HirConstantEnvironment} {kept : String → Bool} {a : Hir}
    {s : State H V} (hs : Facts ctx env (fun x => Z x ∧ kept x = true) s) (hZ : ∀ x ∈ reads a, Z x)
    (hk : (env.all fun p => kept p.1 || !(reads a).contains p.1) = true) :
    Facts ctx env (fun x => x ∈ reads a) s := by
  intro x c hx hmem
  refine hs x c hx ⟨hZ x hmem, ?_⟩
  obtain ⟨l₁, l₂, rfl, -⟩ := List.lookup_eq_some_iff.mp hx
  have hp := List.all_eq_true.mp hk (x, c) (by simp)
  simpa [hmem] using hp

theorem sequenceAgrees_and_armAgrees (ctx : Ctx H V) (h : Hir) :
    SequenceAgrees ctx h ∧ ArmAgrees ctx h := by
  induction h with
  | nil =>
      exact ⟨fun Z env _ _ => (Facts.agree fun _ => Untouched.pure _).conseq (fun _ hs => hs)
        fun _ _ hs _ => hs, fun _ _ _ _ _ => agree_true _⟩
  | leaf i op n hn =>
      have hread : ∀ x ∈ reads n, x ∈ reads (.leaf i op n) := by
        intro x hx
        cases op <;> simp [reads, hx]
      constructor
      · intro Z env hZ hs
        have hZn := fun x hx => hZ x (hread x hx)
        cases op with
        | asm text v => exact agree_sequence_cons hn.1 hZn hs (agree_clear _)
        | _ =>
            exact agree_sequence_cons hn.1 hZn hs
              (agree_statement (EnvLe.refl env) fun _ => Untouched.execLeaf (by simp))
      · intro Z env kept hZ hs
        refine agree_arm_cons hn.2 (fun x hx => hZ x (hread x hx)) hs (agree_true _) fun x hw => ?_
        exact untouched_execs ctx x _ hw _ List.mem_cons_self
  | one i op a n ha hn =>
      constructor
      · intro Z env hZ hs
        simp only [reads, List.forall_mem_append] at hZ
        cases op with
        | function f names =>
            refine agree_sequence_cons hn.1 hZ.2 hs (agree_statement ?_ fun _ => Untouched.pure _)
            exact EnvLe.afterOne _ env (by simp)
        | program =>
            simp only [staleFree, Bool.and_eq_true] at hs
            refine agree_sequence_cons hn.1 hZ.2 hs.2 ?_
            exact (ha.1 Z env hZ.1 hs.1).conseq (fun _ h => h)
              fun _ _ hf hflow => (hf hflow).mono (EnvLe.afterOne _ _ (by simp))
        | _ =>
            exact agree_sequence_cons hn.1 hZ.2 hs
              (agree_execOne (agreeAll_hirSubstituteExpression ctx Z a env hZ.1) (by simp) (by simp) _ _)
      · intro Z env kept hZ hs
        simp only [reads, List.forall_mem_append] at hZ
        cases op with
        | program =>
            simp only [staleFreeArm, Bool.and_eq_true] at hs
            refine agree_arm_cons hn.2 hZ.2 hs.2 ?_ fun x hw =>
              untouched_execs ctx x _ hw _ List.mem_cons_self
            exact (ha.1 (fun x => x ∈ reads a) env (fun _ hx => hx) hs.1.2).conseq
              (fun _ hf => hf.of_kept hZ.1 hs.1.1) fun _ _ _ => trivial
        | _ =>
            refine agree_arm_cons hn.2 hZ.2 hs (agree_true _) fun x hw => ?_
            exact untouched_execs ctx x _ hw _ List.mem_cons_self
  | two i op a b n _ _ hn =>
      constructor
      · intro Z env hZ hs
        simp only [reads, List.forall_mem_append] at hZ
        cases op with
        | whileNode => exact agree_sequence_cons hn.1 hZ.2 hs (agree_clear _)
        | assign => exact agree_sequence_cons hn.1 hZ.2 hs (agree_assign a b)
        | _ => exact agree_sequence_cons hn.1 hZ.2 hs Agree.throw
      · intro Z env kept hZ hs
        simp only [reads, List.forall_mem_append] at hZ
        refine agree_arm_cons hn.2 hZ.2 hs (agree_true _) fun x hw => ?_
        exact untouched_execs ctx x _ hw _ List.mem_cons_self
  | ifNode i c t e n _ ht he hn =>
      constructor
      · intro Z env hZ hs
        simp only [reads, List.forall_mem_append] at hZ
        simp only [staleFree, Bool.and_eq_true] at hs
        refine agree_sequence_cons hn.1 hZ.2 hs.2 ?_
        have hc := (agreeAll_hirSubstituteExpression ctx Z c env hZ.1.1.1).first
        have arm : ∀ {h : Hir}, ArmAgrees ctx h → (∀ x ∈ reads h, Z x) →
            staleFreeArm h (hirSubstituteExpression c env).2.1 (fun _ => true) = true →
            Agree (Facts ctx (hirSubstituteExpression c env).2.1 Z) (runSeq (execs ctx h))
              (runSeq (execs ctx (hirPropagateArm h (hirSubstituteExpression c env).2.1).1))
              fun flow s => flow = .normal → Facts ctx [] Z s := by
          intro h harm hZh hsh
          exact (harm Z _ _ hZh hsh).conseq (fun s hf x c hx hz => hf x c hx hz.1)
            fun _ _ _ _ => Facts.nil
        refine (hc.bind fun v => Facts.agree fun _ => Untouched.truth v).bind fun b => ?_
        cases b with
        | false => exact arm he.2 hZ.1.2 hs.1.2
        | true => exact arm ht.2 hZ.1.1.2 hs.1.1
      · intro Z env kept hZ hs
        simp only [reads, List.forall_mem_append] at hZ
        refine agree_arm_cons hn.2 hZ.2 hs (agree_true _) fun x hw => ?_
        exact untouched_execs ctx x _ hw _ List.mem_cons_self

/-- **Propagation into a sequence that starts without facts changes nothing**, provided no block of it is
    given a stale fact. -/
theorem runSeq_hirPropagateSequence (ctx : Ctx H V) {h : Hir} (hs : staleFree h [] = true) :
    runSeq (execs ctx (hirPropagateSequence h []).1) = runSeq (execs ctx h) := by
  have hagree := (sequenceAgrees_and_armAgrees ctx h).1 (fun _ => True) [] (fun _ _ => trivial) hs
  exact (hagree.conseq (fun _ _ => Facts.nil) fun _ _ h => h).eq.symm

end Vnt
