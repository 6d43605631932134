import Vnt.Ir.Lower

/-!
# `Ir.Scopes` — lexical scoping of HIR trees

`walk` numbers the declarations of a chain in the order in which they are met and notes, for every occurrence of
a variable, the number of the innermost declaration in scope. With `leaky` it describes what the resolver does
instead: an unsafe block, a `PROGRAM` node inside a chain, keeps what it declares in scope to the end of the
enclosing branch, loop or function, and functions inside other statements are not entered.
-/

namespace Vnt

/-! ## Occurrences -/

/-- The names a chain holds, each at the place where the walk meets it: an assigned name behind its value,
    parameters in front of the body. -/
@[simp] def Hir.occurrences : Hir → List String
  | .nil => []
  | .leaf _ (.variable x) n => x :: n.occurrences
  | .leaf _ _ n => n.occurrences
  | .one _ (.variableDecl x _) a n => a.occurrences ++ x :: n.occurrences
  | .one _ (.reassign x _) a n => a.occurrences ++ x :: n.occurrences
  | .one _ (.function _ names) a n => names ++ (a.occurrences ++ n.occurrences)
  | .one _ _ a n => a.occurrences ++ n.occurrences
  | .two _ _ a b n => a.occurrences ++ (b.occurrences ++ n.occurrences)
  | .ifNode _ c t e n => c.occurrences ++ (t.occurrences ++ (e.occurrences ++ n.occurrences))

/-- The occurrences inside functions that are not children of the root. -/
def Hir.nestedOccurrences : Hir → List String
  | .nil => []
  | .leaf _ _ n => n.nestedOccurrences
  | .one _ (.function _ names) a n => names ++ (a.occurrences ++ n.nestedOccurrences)
  | .one _ _ a n => a.nestedOccurrences ++ n.nestedOccurrences
  | .two _ _ a b n => a.nestedOccurrences ++ (b.nestedOccurrences ++ n.nestedOccurrences)
  | .ifNode _ c t e n =>
      c.nestedOccurrences ++ (t.nestedOccurrences ++ (e.nestedOccurrences ++ n.nestedOccurrences))

/-- The names a chain adds to the scope it stands in. -/
def Hir.declared : Hir → List String
  | .nil => []
  | .leaf _ _ n => n.declared
  | .one _ (.variableDecl x _) a n => a.declared ++ x :: n.declared
  | .one _ (.function _ _) _ n => n.declared
  | .one _ .program _ n => n.declared
  | .one _ _ a n => a.declared ++ n.declared
  | .two _ .whileNode c _ n => c.declared ++ n.declared
  | .two _ _ a b n => a.declared ++ (b.declared ++ n.declared)
  | .ifNode _ c _ _ n => c.declared ++ n.declared

/-! ## Scopes -/

/-- The declarations in scope, the newest first, and the number of the next one. -/
structure Scope where
  env : List (String × Nat)
  next : Nat
  deriving DecidableEq, Repr

namespace Scope

def declare (s : Scope) (x : String) : Scope := ⟨(x, s.next) :: s.env, s.next + 1⟩

/-- Declare parameters, and note them. -/
def declareAll : List String → Scope → List (String × Nat) × Scope
  | [], s => ([], s)
  | x :: xs, s =>
      let rest := declareAll xs (s.declare x)
      ((x, s.next) :: rest.1, rest.2)

/-- The end of a block that began in `outer`: numbers are not used again. -/
def leave (outer inner : Scope) : Scope := ⟨outer.env, inner.next⟩

end Scope

/-- The occurrences of a chain with the numbers of their declarations, and the scope behind it. -/
def walk (leaky : Bool) : Hir → Scope → Option (List (String × Nat) × Scope)
  | .nil, s => some ([], s)
  | .leaf _ (.variable x) n, s => do
      let k ← s.env.lookup x
      let n' ← walk leaky n s
      some ((x, k) :: n'.1, n'.2)
  | .leaf _ _ n, s => walk leaky n s
  | .one _ (.variableDecl x _) a n, s => do
      let a' ← walk leaky a s
      let n' ← walk leaky n (a'.2.declare x)
      some (a'.1 ++ (x, a'.2.next) :: n'.1, n'.2)
  | .one _ (.reassign x _) a n, s => do
      let a' ← walk leaky a s
      let k ← a'.2.env.lookup x
      let n' ← walk leaky n a'.2
      some (a'.1 ++ (x, k) :: n'.1, n'.2)
  | .one _ (.function _ names) a n, s =>
      if leaky then walk leaky n s
      else do
        let ps := Scope.declareAll names s
        let a' ← walk leaky a ps.2
        let n' ← walk leaky n (s.leave a'.2)
        some (ps.1 ++ (a'.1 ++ n'.1), n'.2)
  | .one _ .program a n, s => do
      let a' ← walk leaky a s
      let n' ← walk leaky n (if leaky then a'.2 else s.leave a'.2)
      some (a'.1 ++ n'.1, n'.2)
  | .one _ _ a n, s => do
      let a' ← walk leaky a s
      let n' ← walk leaky n a'.2
      some (a'.1 ++ n'.1, n'.2)
  | .two _ .whileNode c b n, s => do
      let c' ← walk leaky c s
      let b' ← walk leaky b c'.2
      let n' ← walk leaky n (c'.2.leave b'.2)
      some (c'.1 ++ (b'.1 ++ n'.1), n'.2)
  | .two _ _ a b n, s => do
      let a' ← walk leaky a s
      let b' ← walk leaky b a'.2
      let n' ← walk leaky n b'.2
      some (a'.1 ++ (b'.1 ++ n'.1), n'.2)
  | .ifNode _ c t e n, s => do
      let c' ← walk leaky c s
      let t' ← walk leaky t c'.2
      let e' ← walk leaky e (c'.2.leave t'.2)
      let n' ← walk leaky n (c'.2.leave e'.2)
      some (c'.1 ++ (t'.1 ++ (e'.1 ++ n'.1)), n'.2)

/-! ## The root -/

/-- The declarations among the root's children. -/
def Hir.rootDeclared : Hir → List String
  | .nil => []
  | .one _ (.variableDecl x _) _ n => x :: n.rootDeclared
  | .leaf _ _ n => n.rootDeclared
  | .one _ _ _ n => n.rootDeclared
  | .two _ _ _ _ n => n.rootDeclared
  | .ifNode _ _ _ _ n => n.rootDeclared

/-- The occurrences in functions that are not themselves children of the root. -/
def Hir.rootNested : Hir → List String
  | .nil => []
  | .leaf _ _ n => n.rootNested
  | .one _ _ a n => a.nestedOccurrences ++ n.rootNested
  | .two _ _ a b n => a.nestedOccurrences ++ (b.nestedOccurrences ++ n.rootNested)
  | .ifNode _ c t e n =>
      c.nestedOccurrences ++ (t.nestedOccurrences ++ (e.nestedOccurrences ++ n.rootNested))

/-- The scope with the root's declarations in it, before anything is walked. -/
def predeclared (h : Hir) : Scope := (Scope.declareAll h.rootDeclared ⟨[], 0⟩).2

/-- The leaky walk over the children of the root. A declaration there has been given its number before, and a
    function is entered. -/
def walkTop (globals : List (String × Nat)) : Hir → Scope → Option (List (String × Nat) × Scope)
  | .nil, s => some ([], s)
  | .one _ (.function _ names) a n, s => do
      let ps := Scope.declareAll names s
      let a' ← walk true a ps.2
      let n' ← walkTop globals n (s.leave a'.2)
      some (ps.1 ++ (a'.1 ++ n'.1), n'.2)
  | .one _ (.variableDecl x _) a n, s => do
      let g ← globals.lookup x
      let a' ← walk true a s
      let n' ← walkTop globals n a'.2
      some (a'.1 ++ (x, g) :: n'.1, n'.2)
  | .leaf i op n, s => do
      let h ← walk true (.leaf i op .nil) s
      let n' ← walkTop globals n h.2
      some (h.1 ++ n'.1, n'.2)
  | .one i op a n, s => do
      let h ← walk true (.one i op a .nil) s
      let n' ← walkTop globals n h.2
      some (h.1 ++ n'.1, n'.2)
  | .two i op a b n, s => do
      let h ← walk true (.two i op a b .nil) s
      let n' ← walkTop globals n h.2
      some (h.1 ++ n'.1, n'.2)
  | .ifNode i c t e n, s => do
      let h ← walk true (.ifNode i c t e .nil) s
      let n' ← walkTop globals n h.2
      some (h.1 ++ n'.1, n'.2)

/-! ## What a walk leaves -/

theorem Scope.declareAll_names (xs : List String) : ∀ s : Scope,
    (Scope.declareAll xs s).1.map Prod.fst = xs := by
  induction xs with
  | nil => intro s; rfl
  | cons x xs ih => intro s; simp [Scope.declareAll, ih]

/-- Every occurrence is noted once and under its own name. -/
theorem walk_names {leaky : Bool} (h : Hir) (hnested : leaky = true → h.nestedOccurrences = []) :
    ∀ {s : Scope} {r : List (String × Nat) × Scope}, walk leaky h s = some r →
      r.1.map Prod.fst = h.occurrences := by
  induction h with
  | nil => intro s r hr; cases hr; rfl
  | leaf i op n hn =>
      intro s r hr
      cases op with
      | «variable» x =>
          simp only [walk, bind, Option.bind_eq_some_iff, Option.some.injEq] at hr
          obtain ⟨k, -, n', hn', rfl⟩ := hr
          simp [hn hnested hn']
      | _ => exact hn hnested hr
  | one i op a n ha hn =>
      intro s r hr
      cases op with
      | variableDecl x t =>
          simp only [Hir.nestedOccurrences, List.append_eq_nil_iff] at hnested
          simp only [walk, bind, Option.bind_eq_some_iff, Option.some.injEq] at hr
          obtain ⟨a', ha', n', hn', rfl⟩ := hr
          simp [ha (fun h => (hnested h).1) ha', hn (fun h => (hnested h).2) hn']
      | reassign x t =>
          simp only [Hir.nestedOccurrences, List.append_eq_nil_iff] at hnested
          simp only [walk, bind, Option.bind_eq_some_iff, Option.some.injEq] at hr
          obtain ⟨a', ha', k, -, n', hn', rfl⟩ := hr
          simp [ha (fun h => (hnested h).1) ha', hn (fun h => (hnested h).2) hn']
      | function f names =>
          simp only [Hir.nestedOccurrences, List.append_eq_nil_iff] at hnested
          cases leaky with
          | true =>
              obtain ⟨hnames, hbody, hrest⟩ := hnested rfl
              have hr' : walk true n s = some r := hr
              simp [hnames, hbody, hn (fun _ => hrest) hr']
          | false =>
              simp only [walk, bind, Option.bind_eq_some_iff, Option.some.injEq, Bool.false_eq_true, if_false] at hr
              obtain ⟨a', ha', n', hn', rfl⟩ := hr
              simp [Scope.declareAll_names, ha Bool.noConfusion ha', hn Bool.noConfusion hn']
      | _ =>
          simp only [Hir.nestedOccurrences, List.append_eq_nil_iff] at hnested
          simp only [walk, bind, Option.bind_eq_some_iff, Option.some.injEq] at hr
          obtain ⟨a', ha', n', hn', rfl⟩ := hr
          simp [ha (fun h => (hnested h).1) ha', hn (fun h => (hnested h).2) hn']
  | two i op a b n ha hb hn =>
      intro s r hr
      simp only [Hir.nestedOccurrences, List.append_eq_nil_iff] at hnested
      cases op <;>
        (simp only [walk, bind, Option.bind_eq_some_iff, Option.some.injEq] at hr
         obtain ⟨a', ha', b', hb', n', hn', rfl⟩ := hr
         simp [ha (fun h => (hnested h).1) ha', hb (fun h => (hnested h).2.1) hb', hn (fun h => (hnested h).2.2) hn'])
  | ifNode i c t e n hc ht he hn =>
      intro s r hr
      simp only [Hir.nestedOccurrences, List.append_eq_nil_iff] at hnested
      simp only [walk, bind, Option.bind_eq_some_iff, Option.some.injEq] at hr
      obtain ⟨c', hc', t', ht', e', he', n', hn', rfl⟩ := hr
      simp [hc (fun h => (hnested h).1) hc', ht (fun h => (hnested h).2.1) ht',
        he (fun h => (hnested h).2.2.1) he', hn (fun h => (hnested h).2.2.2) hn']

/-- `s'` extends `s` by declarations of exactly these names, under numbers that were still free. -/
structure Scope.Grows (s s' : Scope) (names : List String) : Prop where
  next_le : s.next ≤ s'.next
  env : ∃ new, s'.env = new ++ s.env ∧ (∀ p ∈ new, s.next ≤ p.2 ∧ p.2 < s'.next) ∧
    ∀ x, x ∈ new.map Prod.fst ↔ x ∈ names

namespace Scope.Grows

variable {s s' s'' : Scope} {xs ys : List String}

theorem refl (s : Scope) : s.Grows s [] := ⟨Nat.le_refl _, [], rfl, by simp, by simp⟩

theorem declare (s : Scope) (x : String) : s.Grows (s.declare x) [x] :=
  ⟨Nat.le_succ _, [(x, s.next)], rfl, by simp [Scope.declare], by simp⟩

theorem trans (h : s.Grows s' xs) (h' : s'.Grows s'' ys) : s.Grows s'' (xs ++ ys) := by
  obtain ⟨hle, new, henv, hnew, hnames⟩ := h
  obtain ⟨hle', new', henv', hnew', hnames'⟩ := h'
  refine ⟨by omega, new' ++ new, by rw [henv', henv, List.append_assoc], ?_, ?_⟩
  · intro p hp
    rcases List.mem_append.mp hp with hp | hp
    · have := hnew' p hp; omega
    · have := hnew p hp; omega
  · intro x
    rw [List.map_append, List.mem_append, List.mem_append, hnames, hnames', or_comm]

/-- The end of a block. -/
theorem leave (hle : s.next ≤ s'.next) : s.Grows (s.leave s') [] :=
  ⟨hle, [], rfl, by simp, by simp⟩

end Scope.Grows

theorem Scope.declareAll_grows (xs : List String) : ∀ s : Scope, s.Grows (Scope.declareAll xs s).2 xs := by
  induction xs with
  | nil => exact fun s => .refl s
  | cons x xs ih => exact fun s => (Scope.Grows.declare s x).trans (ih _)

/-- A lexical walk adds what the chain declares. -/
theorem walk_grows (h : Hir) : ∀ {s s' : Scope} {l : List (String × Nat)}, walk false h s = some (l, s') →
    s.Grows s' h.declared := by
  induction h with
  | nil => intro s s' l hr; cases hr; exact .refl s
  | leaf i op n hn =>
      intro s s' l hr
      cases op with
      | «variable» x =>
          simp only [walk, bind, Option.bind_eq_some_iff, Option.some.injEq, Prod.mk.injEq] at hr
          obtain ⟨k, -, ⟨ln, s₂⟩, hn', rfl, rfl⟩ := hr
          exact hn hn'
      | _ => exact hn hr
  | one i op a n ha hn =>
      intro s s' l hr
      cases op with
      | variableDecl x t =>
          simp only [walk, bind, Option.bind_eq_some_iff, Option.some.injEq, Prod.mk.injEq] at hr
          obtain ⟨⟨la, s₁⟩, ha', ⟨ln, s₂⟩, hn', rfl, rfl⟩ := hr
          exact (ha ha').trans ((Scope.Grows.declare _ x).trans (hn hn'))
      | reassign x t =>
          simp only [walk, bind, Option.bind_eq_some_iff, Option.some.injEq, Prod.mk.injEq] at hr
          obtain ⟨⟨la, s₁⟩, ha', k, -, ⟨ln, s₂⟩, hn', rfl, rfl⟩ := hr
          exact (ha ha').trans (hn hn')
      | function f names =>
          simp only [walk, bind, Option.bind_eq_some_iff, Option.some.injEq, Prod.mk.injEq, Bool.false_eq_true, if_false] at hr
          obtain ⟨⟨la, s₁⟩, ha', ⟨ln, s₂⟩, hn', rfl, rfl⟩ := hr
          have hle := ((Scope.declareAll_grows names s).trans (ha ha')).next_le
          exact (Scope.Grows.leave hle).trans (hn hn')
      | program =>
          simp only [walk, bind, Option.bind_eq_some_iff, Option.some.injEq, Prod.mk.injEq, Bool.false_eq_true, if_false] at hr
          obtain ⟨⟨la, s₁⟩, ha', ⟨ln, s₂⟩, hn', rfl, rfl⟩ := hr
          exact (Scope.Grows.leave (ha ha').next_le).trans (hn hn')
      | _ =>
          simp only [walk, bind, Option.bind_eq_some_iff, Option.some.injEq, Prod.mk.injEq] at hr
          obtain ⟨⟨la, s₁⟩, ha', ⟨ln, s₂⟩, hn', rfl, rfl⟩ := hr
          exact (ha ha').trans (hn hn')
  | two i op a b n ha hb hn =>
      intro s s' l hr
      cases op with
      | whileNode =>
          simp only [walk, bind, Option.bind_eq_some_iff, Option.some.injEq, Prod.mk.injEq] at hr
          obtain ⟨⟨la, s₁⟩, ha', ⟨lb, s₃⟩, hb', ⟨ln, s₂⟩, hn', rfl, rfl⟩ := hr
          exact (ha ha').trans ((Scope.Grows.leave (hb hb').next_le).trans (hn hn'))
      | _ =>
          simp only [walk, bind, Option.bind_eq_some_iff, Option.some.injEq, Prod.mk.injEq] at hr
          obtain ⟨⟨la, s₁⟩, ha', ⟨lb, s₃⟩, hb', ⟨ln, s₂⟩, hn', rfl, rfl⟩ := hr
          exact (ha ha').trans ((hb hb').trans (hn hn'))
  | ifNode i c t e n hc ht he hn =>
      intro s s' l hr
      simp only [walk, bind, Option.bind_eq_some_iff, Option.some.injEq, Prod.mk.injEq] at hr
      obtain ⟨⟨lc, s₁⟩, hc', ⟨lt, s₃⟩, ht', ⟨le, s₄⟩, he', ⟨ln, s₂⟩, hn', rfl, rfl⟩ := hr
      have hle := ((Scope.Grows.leave (ht ht').next_le).trans (he he')).next_le
      exact (hc hc').trans ((Scope.Grows.leave hle).trans (hn hn'))

end Vnt
