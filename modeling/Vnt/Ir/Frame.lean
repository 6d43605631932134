import Vnt.Ir.Rewrite
import Vnt.Lib.Agree

/-!
# `Ir.Frame` — what a piece of code leaves alone

`Untouched a m` says that a normal end of `m` has the storage cell `a` as it was. It composes along the
monad, so every primitive of the semantics gets its lemma once, and from them follows the frame rule: an
expression without a call touches no cell, and a statement touches no variable that `mayWrite` excludes.
-/

namespace Vnt

open Lib

variable {H V : Type} {ctx : Ctx H V}

/-! ## Programs that leave a storage cell alone -/

/-- A normal end of `m` has the cell `a` as it was. -/
def Untouched {α : Type} (a : Addr) (m : M H V α) : Prop :=
  ∀ s r s', m s = .ok r s' → s'.vars a = s.vars a

namespace Untouched

variable {α β : Type} {a : Addr}

theorem pure (r : α) : Untouched a (Pure.pure r : M H V α) := by
  intro s r' s' h
  cases h
  rfl

theorem throw (e : Stop) : Untouched a (MonadExcept.throw e : M H V α) := by
  intro s r s' h
  cases h

theorem bind {m : M H V α} {f : α → M H V β} (hm : Untouched a m) (hf : ∀ r, Untouched a (f r)) :
    Untouched a (m >>= f) := by
  intro s r s' h
  obtain ⟨x, t, hx, hr⟩ := bind_ok_iff.mp h
  rw [hf x t r s' hr, hm s x t hx]

theorem liftHost (m : HostM H α) : Untouched a (Vnt.liftHost m : M H V α) := by
  intro s r s' h
  unfold Vnt.liftHost at h
  split at h
  · cases h; rfl
  · cases h

theorem readVar (b : Addr) : Untouched a (Vnt.readVar b : M H V (Value V)) := by
  intro s r s' h
  unfold Vnt.readVar at h
  split at h <;> · cases h; rfl

theorem writeVar {b : Addr} (hb : a ≠ b) (v : Value V) : Untouched a (Vnt.writeVar b v : M H V Unit) := by
  intro s r s' h
  cases h
  simp [hb]

theorem record (e : Event V) : Untouched a (Vnt.record e : M H V Unit) := by
  intro s r s' h
  cases h
  rfl

theorem printValue (host : Host H V) (v : Value V) : Untouched a (Vnt.printValue host v) :=
  fun s r s' h => record _ s r s' h

theorem intResult (m : String) (r : Option Int64) : Untouched a (Vnt.intResult m r : M H V (Value V)) := by
  cases r with
  | none => exact throw _
  | some z => exact pure _

theorem intBinary (op : BinaryOperator) (x y : Int64) :
    Untouched a (Vnt.intBinary op x y : M H V (Value V)) := by
  cases op <;> simp only [Vnt.intBinary]
  all_goals first | exact intResult _ _ | exact pure _ | exact throw _ | skip
  all_goals
    split
    · exact throw _
    · exact intResult _ _

theorem floatBinary (f : FloatUnit) (op : BinaryOperator) (x y : Double) :
    Untouched a (Vnt.floatBinary f op x y : M H V (Value V)) := by
  cases op <;> simp only [Vnt.floatBinary]
  all_goals first | exact pure _ | exact throw _ | skip
  split
  · exact throw _
  · exact pure _

theorem binaryValue (host : Host H V) (op : BinaryOperator) (v w : Value V) :
    Untouched a (Vnt.binaryValue host op v w) := by
  unfold Vnt.binaryValue
  split
  · exact intBinary _ _ _
  · exact floatBinary _ _ _ _
  · split
    · exact pure _
    · exact pure _
    · exact liftHost _
  · exact liftHost _

theorem unaryValue (host : Host H V) (op : UnaryOperator) (v : Value V) :
    Untouched a (Vnt.unaryValue host op v) := by
  unfold Vnt.unaryValue
  split
  · exact pure _
  · exact intResult _ _
  · exact pure _
  · exact liftHost _

theorem truth (v : Value V) : Untouched a (Vnt.truth v : M H V Bool) := by
  unfold Vnt.truth
  split
  · exact pure _
  · exact throw _

theorem deref (v : Value V) : Untouched a (Vnt.deref v : M H V (Value V)) := by
  unfold Vnt.deref
  split
  · exact readVar _
  · exact throw _

theorem reference (h : Hir) : Untouched a (Vnt.reference ctx h) := by
  unfold Vnt.reference
  split
  · exact pure _
  · exact throw _

theorem first {ms : List (M H V α)} (hms : ∀ m ∈ ms, Untouched a m) : Untouched a (Vnt.first ms) := by
  cases ms with
  | nil => exact throw _
  | cons m ms => exact hms m List.mem_cons_self

theorem condition {cs : List (M H V (Value V))} (hcs : ∀ m ∈ cs, Untouched a m) :
    Untouched a (Vnt.condition cs) := (first hcs).bind fun v => truth v

theorem pushAll {host : Host H V} {ms : List (M H V (Value V))} (hms : ∀ m ∈ ms, Untouched a m) :
    ∀ array, Untouched a (Vnt.pushAll host ms array) := by
  induction ms with
  | nil => exact fun array => pure array
  | cons m ms ih =>
      intro array
      refine (hms m List.mem_cons_self).bind fun v => (liftHost _).bind fun array' => ?_
      exact ih (fun m' hm' => hms m' (List.mem_cons_of_mem m hm')) array'

theorem evalLeaf (op : HirLeaf) : Untouched a (Vnt.evalLeaf ctx op) := by
  cases op <;> first | exact pure _ | exact throw _ | exact liftHost _ | exact readVar _

theorem evalOne {op : HirOne} {h : Hir} {as : List (M H V (Value V))}
    (hop : ∀ f, op ≠ .call f) (has : ∀ m ∈ as, Untouched a m) : Untouched a (Vnt.evalOne ctx op h as) := by
  cases op with
  | array => exact (liftHost _).bind fun array => pushAll has array
  | call f => exact absurd rfl (hop f)
  | member name => exact (first has).bind fun o => liftHost _
  | unary u =>
      cases u with
      | reference => exact reference h
      | dereference => exact (first has).bind fun r => deref r
      | not => exact (first has).bind fun v => unaryValue _ _ v
      | negate => exact (first has).bind fun v => unaryValue _ _ v
  | _ => exact throw _

theorem evalTwo {op : HirTwo} {left right : M H V (Value V)} (hl : Untouched a left)
    (hr : Untouched a right) : Untouched a (Vnt.evalTwo ctx op left right) := by
  have tail : Untouched a (do let r ← right; let b ← Vnt.truth r; Pure.pure (.bool b) : M H V (Value V)) :=
    hr.bind fun r => (truth r).bind fun b => pure _
  cases op with
  | index => exact hl.bind fun o => hr.bind fun i => liftHost _
  | binary u =>
      cases u with
      | and =>
          refine hl.bind fun l => (truth l).bind fun b => ?_
          cases b with
          | false => exact pure _
          | true => exact tail
      | or =>
          refine hl.bind fun l => (truth l).bind fun b => ?_
          cases b with
          | false => exact tail
          | true => exact pure _
      | _ => exact hl.bind fun l => hr.bind fun r => binaryValue _ _ l r
  | _ => exact throw _

end Untouched

/-- An expression without a call leaves every cell alone. -/
theorem untouched_evals (ctx : Ctx H V) (a : Addr) (h : Hir) (hc : hirContainsCall h = false) :
    ∀ m ∈ evals ctx h, Untouched a m := by
  induction h with
  | nil => simp [evals]
  | leaf i op n hn =>
      simp only [hirContainsCall] at hc
      simp only [evals, List.forall_mem_cons]
      exact ⟨Untouched.evalLeaf op, hn hc⟩
  | one i op b n hb hn =>
      have hop : ∀ f, op ≠ .call f := by
        rintro f rfl
        simp [hirContainsCall] at hc
      have hcs : hirContainsCall b = false ∧ hirContainsCall n = false := by
        cases op with
        | call f => exact absurd rfl (hop f)
        | _ => simpa only [hirContainsCall, Bool.or_eq_false_iff] using hc
      simp only [evals, List.forall_mem_cons]
      exact ⟨Untouched.evalOne hop (hb hcs.1), hn hcs.2⟩
  | two i op b c n hb hc' hn =>
      simp only [hirContainsCall, Bool.or_eq_false_iff] at hc
      simp only [evals, List.forall_mem_cons]
      exact ⟨Untouched.evalTwo (Untouched.first (hb hc.1.1)) (Untouched.first (hc' hc.1.2)), hn hc.2⟩
  | ifNode i c t e n _ _ _ hn =>
      simp only [hirContainsCall, Bool.or_eq_false_iff] at hc
      simp only [evals, List.forall_mem_cons]
      exact ⟨Untouched.throw _, hn hc.2⟩

/-! ## Which variables a statement may write -/

/-- The write of an assignment may reach the variable `x`: it names it, or goes through a reference. -/
def writesThrough (x : String) : Hir → Bool
  | .leaf _ (.variable y) _ => y == x
  | .one _ (.unary .dereference) _ _ => true
  | _ => false

/-- The statement opcode itself stores to `x`. -/
def HirOne.stores (x : String) : HirOne → Bool
  | .variableDecl y _ | .reassign y _ => y == x
  | _ => false

/-- Running the chain may write the variable `x`: by name, through a reference, in a call or in inline
    assembly. -/
def mayWrite (x : String) : Hir → Bool
  | .nil => false
  | .leaf _ (.asm _ _) _ => true
  | .leaf _ _ n => mayWrite x n
  | .one _ .program a n => mayWrite x a || mayWrite x n
  | .one _ (.function _ _) _ n => mayWrite x n
  | .one i op a n => op.stores x || hirContainsCall (.one i op a .nil) || mayWrite x n
  | .two _ .whileNode c b n => hirContainsCall c || mayWrite x b || mayWrite x n
  | .two _ .assign a b n => writesThrough x a || hirContainsCall a || hirContainsCall b || mayWrite x n
  | .two _ _ a b n => hirContainsCall a || hirContainsCall b || mayWrite x n
  | .ifNode _ c t e n => hirContainsCall c || mayWrite x t || mayWrite x e || mayWrite x n

namespace Untouched

variable {a : Addr}

theorem runSeq {ms : List (M H V (Flow V))} (hms : ∀ m ∈ ms, Untouched a m) :
    Untouched a (Vnt.runSeq ms) := by
  induction ms with
  | nil => exact pure _
  | cons m ms ih =>
      refine (hms m List.mem_cons_self).bind fun flow => ?_
      have htail := ih fun m' hm' => hms m' (List.mem_cons_of_mem m hm')
      cases flow with
      | normal => exact htail
      | _ => exact pure _

theorem branch {c : M H V Bool} {t e : M H V (Flow V)} (hc : Untouched a c) (ht : Untouched a t)
    (he : Untouched a e) : Untouched a (Vnt.branch c t e) := by
  refine hc.bind fun b => ?_
  cases b with
  | false => exact he
  | true => exact ht

theorem whileLoop {c : M H V Bool} {body : M H V (Flow V)} (hc : Untouched a c)
    (hb : Untouched a body) : ∀ clock, Untouched a (Vnt.whileLoop c body clock) := by
  intro clock
  induction clock with
  | zero =>
      refine hc.bind fun b => ?_
      cases b with
      | false => exact pure _
      | true => exact throw _
  | succ clock ih =>
      refine hc.bind fun b => ?_
      cases b with
      | false => exact pure _
      | true =>
          refine hb.bind fun flow => ?_
          cases flow <;> first | exact ih | exact pure _

theorem execLeaf {op : HirLeaf} (hop : ∀ text v, op ≠ .asm text v) :
    Untouched a (Vnt.execLeaf ctx op) := by
  cases op with
  | asm text v => exact absurd rfl (hop text v)
  | _ => first | exact pure _ | exact throw _

theorem execOne {x : String} {op : HirOne} {as : List (M H V (Value V))} {ms : List (M H V (Flow V))}
    (hx : op.stores x = false) (hop : ∀ f, op ≠ .call f) (has : ∀ m ∈ as, Untouched (ctx.addr x) m)
    (hms : op = .program → ∀ m ∈ ms, Untouched (ctx.addr x) m) :
    Untouched (ctx.addr x) (Vnt.execOne ctx op as ms) := by
  have store : ∀ y, (y == x) = false →
      Untouched (ctx.addr x) (do let v ← Vnt.first as; Vnt.writeVar (ctx.addr y) v
                                 Pure.pure .normal : M H V (Flow V)) := by
    intro y hy
    refine (first has).bind fun v => (writeVar ?_ v).bind fun _ => pure _
    intro h
    simp [ctx.addr_injective h] at hy
  cases op with
  | program => exact runSeq (hms rfl)
  | print => exact (first has).bind fun v => (printValue _ v).bind fun _ => pure _
  | variableDecl y t => exact store y hx
  | reassign y t => exact store y hx
  | call f => exact absurd rfl (hop f)
  | returnNode =>
      cases as with
      | nil => exact pure _
      | cons m as => exact (has m List.mem_cons_self).bind fun v => pure _
  | _ => first | exact pure _ | exact throw _

theorem assign {x : String} {target : Hir} {value : M H V (Value V)} (hx : writesThrough x target = false)
    (ht : hirContainsCall target = false) (hv : Untouched (ctx.addr x) value) :
    Untouched (ctx.addr x) (Vnt.assign ctx target value) := by
  unfold Vnt.assign
  split
  · rename_i y n
    refine hv.bind fun v => writeVar ?_ v
    intro h
    simp [writesThrough, ctx.addr_injective h] at hx
  · simp only [hirContainsCall, Bool.or_eq_false_iff] at ht
    refine (first (untouched_evals ctx _ _ ht.1.1)).bind fun o => ?_
    refine (first (untouched_evals ctx _ _ ht.1.2)).bind fun i => ?_
    exact hv.bind fun v => (liftHost _).bind fun _ => pure _
  · simp only [hirContainsCall, Bool.or_eq_false_iff] at ht
    refine (first (untouched_evals ctx _ _ ht.1)).bind fun o => ?_
    exact hv.bind fun v => (liftHost _).bind fun _ => pure _
  · simp [writesThrough] at hx
  · exact throw _

end Untouched

/-- **Frame.** A statement that may not write `x` leaves its cell alone. -/
theorem untouched_execs (ctx : Ctx H V) (x : String) (h : Hir) (hw : mayWrite x h = false) :
    ∀ m ∈ execs ctx h, Untouched (ctx.addr x) m := by
  induction h with
  | nil => simp [execs]
  | leaf i op n hn =>
      simp only [execs, List.forall_mem_cons]
      have hop : ∀ text v, op ≠ .asm text v := by
        rintro text v rfl
        simp [mayWrite] at hw
      have hwn : mayWrite x n = false := by
        cases op with
        | asm text v => exact absurd rfl (hop text v)
        | _ => simpa only [mayWrite] using hw
      exact ⟨Untouched.execLeaf hop, hn hwn⟩
  | one i op a n ha hn =>
      simp only [execs, List.forall_mem_cons]
      cases op with
      | program =>
          simp only [mayWrite, Bool.or_eq_false_iff] at hw
          exact ⟨Untouched.runSeq (ha hw.1), hn hw.2⟩
      | function f names =>
          simp only [mayWrite] at hw
          exact ⟨Untouched.pure _, hn hw⟩
      | call f => simp [mayWrite, hirContainsCall] at hw
      | _ =>
          simp only [mayWrite, hirContainsCall, Bool.or_false, Bool.or_eq_false_iff] at hw
          refine ⟨Untouched.execOne hw.1.1 (by simp) (untouched_evals ctx _ a hw.1.2) (by simp), hn hw.2⟩
  | two i op a b n ha hb hn =>
      simp only [execs, List.forall_mem_cons]
      cases op with
      | whileNode =>
          simp only [mayWrite, Bool.or_eq_false_iff] at hw
          exact ⟨Untouched.whileLoop (Untouched.condition (untouched_evals ctx _ a hw.1.1))
            (Untouched.runSeq (hb hw.1.2)) _, hn hw.2⟩
      | assign =>
          simp only [mayWrite, Bool.or_eq_false_iff] at hw
          refine ⟨(Untouched.assign hw.1.1.1 hw.1.1.2 ?_).bind fun _ => Untouched.pure _, hn hw.2⟩
          exact Untouched.first (untouched_evals ctx _ b hw.1.2)
      | _ =>
          simp only [mayWrite, Bool.or_eq_false_iff] at hw
          exact ⟨Untouched.throw _, hn hw.2⟩
  | ifNode i c t e n hc ht he hn =>
      simp only [execs, List.forall_mem_cons]
      simp only [mayWrite, Bool.or_eq_false_iff] at hw
      exact ⟨Untouched.branch (Untouched.condition (untouched_evals ctx _ c hw.1.1.1))
        (Untouched.runSeq (ht hw.1.1.2)) (Untouched.runSeq (he hw.1.2)), hn hw.2⟩

end Vnt
