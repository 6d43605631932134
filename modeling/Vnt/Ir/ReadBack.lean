import Vnt.Ir.Total

/-!
# `Ir.ReadBack` — the syntax tree read back from the HIR

Lowering copies the syntax tree node by node and the resolver then writes storage keys over the names of variables.
A key still holds the source name, so the tree can be read back. What the HIR has no place for is the types and the
`unsafe` mark in the header of a function.
-/

namespace Vnt

/-! ## Names -/

/-- The source name in a storage key: what follows the number. -/
def sourceName (key : String) : String :=
  String.ofList ((key.toList.drop "__vnt_symbol_".length).dropWhile Char.isDigit).tail

theorem sourceName_symbolKey (i : Nat) (x : String) : sourceName (symbolKey i x) = x := by
  have hchars : (symbolKey i x).toList.drop "__vnt_symbol_".length = Nat.toDigits 10 i ++ '_' :: x.toList := by
    have hdigits : (toString i).toList = Nat.toDigits 10 i := by simp
    simp only [symbolKey, String.toList_append, hdigits, List.append_assoc]
    rfl
  have hall : ∀ c ∈ Nat.toDigits 10 i, c.isDigit = true := by
    intro c hc
    exact Nat.isDigit_of_mem_toDigits (by decide) (by decide) hc
  rw [sourceName, hchars, List.dropWhile_append_of_pos hall]
  exact String.ofList_toList

/-! ## Reading -/

def readLeaf (name : String → String) : HirLeaf → AstLeaf
  | .struct n fields => .structDeclaration n fields
  | .breakNode => .breakStatement
  | .continueNode => .continueStatement
  | .string text => .stringLiteral text
  | .integer v => .integerLiteral v
  | .float v => .floatLiteral v
  | .boolean b => .booleanLiteral b
  | .null => .nullLiteral
  | .variable x => .variable (name x)
  | .asm text isVolatile => .asmStatement text isVolatile

/-- A `PROGRAM` node inside the program is an unsafe block, a `REASSIGN` node a declaration that is marked. -/
def readOne (name : String → String) : HirOne → AstOne
  | .program => .unsafeBlock
  | .print => .printStatement
  | .function f names => .functionDeclaration ⟨f, names.map fun x => (name x, none), none, false⟩
  | .call f => .functionCall f
  | .returnNode => .returnStatement
  | .array => .arrayLiteral
  | .variableDecl x t => .variableDeclaration (name x) t false
  | .reassign x t => .variableDeclaration (name x) t true
  | .member m => .memberExpression m
  | .unary op => .unaryExpression op

def readTwo : HirTwo → AstTwo
  | .whileNode => .whileStatement
  | .index => .indexExpression
  | .assign => .assignment
  | .binary op => .binaryExpression op

/-- The chain, its variables under `name`. A function in it was not resolved. -/
def Hir.read (name : String → String) : Hir → AstNode
  | .nil => .null
  | .leaf _ op n => .leaf (readLeaf name op) (n.read name)
  | .one _ (.function f names) a n => .one (readOne id (.function f names)) (a.read id) (n.read name)
  | .one _ op a n => .one (readOne name op) (a.read name) (n.read name)
  | .two _ op a b n => .two (readTwo op) (a.read name) (b.read name) (n.read name)
  | .ifNode _ c t e n => .ifStatement (c.read name) (t.read name) (e.read name) (n.read name)

/-- The children of the root: their functions are resolved too. -/
def Hir.readTop : Hir → AstNode
  | .nil => .null
  | .leaf _ op n => .leaf (readLeaf sourceName op) n.readTop
  | .one _ op a n => .one (readOne sourceName op) (a.read sourceName) n.readTop
  | .two _ op a b n => .two (readTwo op) (a.read sourceName) (b.read sourceName) n.readTop
  | .ifNode _ c t e n => .ifStatement (c.read sourceName) (t.read sourceName) (e.read sourceName) n.readTop

/-- The program read back. -/
def Hir.readProgram : Hir → AstNode
  | .one _ .program a _ => .one .program a.readTop .null
  | _ => .null

/-! ## What the HIR keeps -/

/-- A header with the names of the function and of its parameters only. -/
def FunctionHeader.bare (h : FunctionHeader) : FunctionHeader where
  name := h.name
  parameters := h.parameters.map fun p => (p.1, none)
  returnType := none
  isUnsafe := false

def AstOne.bare : AstOne → AstOne
  | .functionDeclaration h => .functionDeclaration h.bare
  | kind => kind

/-- The tree with bare headers. -/
def AstNode.bare : AstNode → AstNode
  | .null => .null
  | .leaf kind n => .leaf kind n.bare
  | .one kind a n => .one kind.bare a.bare n.bare
  | .two kind a b n => .two kind a.bare b.bare n.bare
  | .ifStatement c t e n => .ifStatement c.bare t.bare e.bare n.bare

/-! ## Reading is unaware of positions -/

theorem read_number (name : String → String) (h : Hir) : ∀ k, (h.number k).read name = h.read name := by
  induction h generalizing name with
  | nil => exact fun _ => rfl
  | leaf i op n hn => intro k; simp only [Hir.number, Hir.read, hn]
  | one i op a n ha hn => intro k; cases op <;> simp only [Hir.number, Hir.read, ha, hn]
  | two i op a b n ha hb hn => intro k; simp only [Hir.number, Hir.read, ha, hb, hn]
  | ifNode i c t e n hc ht he hn => intro k; simp only [Hir.number, Hir.read, hc, ht, he, hn]

theorem readTop_append (h h' : Hir) : (h.append h').readTop = h.readTop.append h'.readTop := by
  induction h with
  | nil => rfl
  | leaf i op n hn => simp only [Hir.append, Hir.readTop, AstNode.append, hn]
  | one i op a n _ hn => simp only [Hir.append, Hir.readTop, AstNode.append, hn]
  | two i op a b n _ _ hn => simp only [Hir.append, Hir.readTop, AstNode.append, hn]
  | ifNode i c t e n _ _ _ hn => simp only [Hir.append, Hir.readTop, AstNode.append, hn]

/-! ## The resolver writes names that can be read -/

/-- The keys on the stack hold the source names. -/
def HirResolver.Named (r : HirResolver) : Prop := ∀ b ∈ r.symbols, sourceName b.storageKey = b.sourceName

namespace HirResolver.Named

variable {r r' : HirResolver} {x : String} {b : HirSymbol}

theorem find (h : r.Named) (hb : r.find x = some b) : sourceName b.storageKey = x := by
  have hname := List.find?_some hb
  rw [h b (List.mem_of_find?_eq_some hb)]
  exact eq_of_beq hname

theorem declare (h : r.Named) (x : String) : (r.declare x).Named := by
  intro b hb
  rcases List.mem_cons.mp hb with rfl | hb
  · exact sourceName_symbolKey r.nextId x
  · exact h b hb

theorem of_subset (h : r.Named) (hs : r'.symbols ⊆ r.symbols) : r'.Named := fun b hb => h b (hs hb)

theorem enter (h : r.Named) : r.enter.Named := h

theorem pop (h : r.Named) : r.pop.Named := h.of_subset (List.dropWhile_sublist _).subset

theorem leave (h : r'.Named) (outer : HirResolver) : (outer.leave r').Named := h.pop

end HirResolver.Named

/-- **Resolution changes names to keys that read back.** -/
theorem resolverBindExpr_read (h : Hir) : ∀ {r : HirResolver} {p : Hir × HirResolver}, r.Named →
    resolverBindExpr h r = some p → p.1.read sourceName = h.read id ∧ p.2.Named := by
  induction h with
  | nil => intro r p hr hp; cases hp; exact ⟨rfl, hr⟩
  | leaf i op n hn =>
      intro r p hr hp
      cases op with
      | «variable» x =>
          simp only [resolverBindExpr, bind, Option.bind_eq_some_iff, Option.some.injEq] at hp
          obtain ⟨b, hb, q, hq, rfl⟩ := hp
          obtain ⟨hread, hr'⟩ := hn hr hq
          refine ⟨?_, hr'⟩
          simp only [Hir.read, readLeaf, hr.find hb, hread, id]
      | _ =>
          simp only [resolverBindExpr, bind, Option.bind_eq_some_iff, Option.some.injEq] at hp
          obtain ⟨q, hq, rfl⟩ := hp
          obtain ⟨hread, hr'⟩ := hn hr hq
          refine ⟨?_, hr'⟩
          simp only [Hir.read, readLeaf, hread]
  | one i op a n ha hn =>
      intro r p hr hp
      cases op with
      | function f names =>
          simp only [resolverBindExpr, bind, Option.bind_eq_some_iff, Option.some.injEq] at hp
          obtain ⟨q, hq, rfl⟩ := hp
          obtain ⟨hread, hr'⟩ := hn hr hq
          refine ⟨?_, hr'⟩
          simp only [Hir.read, hread]
      | variableDecl x t =>
          simp only [resolverBindExpr, bind, Option.bind_eq_some_iff, Option.some.injEq] at hp
          obtain ⟨q, hq, q', hq', rfl⟩ := hp
          obtain ⟨hread, hr₁⟩ := ha hr hq
          obtain ⟨hread', hr₂⟩ := hn (hr₁.declare x) hq'
          refine ⟨?_, hr₂⟩
          simp only [Hir.read, readOne, sourceName_symbolKey, hread, hread', id]
      | reassign x t =>
          simp only [resolverBindExpr, bind, Option.bind_eq_some_iff, Option.some.injEq] at hp
          obtain ⟨q, hq, b, hb, q', hq', rfl⟩ := hp
          obtain ⟨hread, hr₁⟩ := ha hr hq
          obtain ⟨hread', hr₂⟩ := hn hr₁ hq'
          refine ⟨?_, hr₂⟩
          simp only [Hir.read, readOne, hr₁.find hb, hread, hread', id]
      | _ =>
          simp only [resolverBindExpr, bind, Option.bind_eq_some_iff, Option.some.injEq] at hp
          obtain ⟨q, hq, q', hq', rfl⟩ := hp
          obtain ⟨hread, hr₁⟩ := ha hr hq
          obtain ⟨hread', hr₂⟩ := hn hr₁ hq'
          refine ⟨?_, hr₂⟩
          simp only [Hir.read, readOne, hread, hread']
  | two i op a b n ha hb hn =>
      intro r p hr hp
      cases op with
      | whileNode =>
          simp only [resolverBindExpr, bind, Option.bind_eq_some_iff, Option.some.injEq] at hp
          obtain ⟨q, hq, q', hq', q'', hq'', rfl⟩ := hp
          obtain ⟨hread, hr₁⟩ := ha hr hq
          obtain ⟨hread', hr₂⟩ := hb hr₁.enter hq'
          obtain ⟨hread'', hr₃⟩ := hn (hr₂.leave q.2) hq''
          refine ⟨?_, hr₃⟩
          simp only [Hir.read, hread, hread', hread'']
      | _ =>
          simp only [resolverBindExpr, bind, Option.bind_eq_some_iff, Option.some.injEq] at hp
          obtain ⟨q, hq, q', hq', q'', hq'', rfl⟩ := hp
          obtain ⟨hread, hr₁⟩ := ha hr hq
          obtain ⟨hread', hr₂⟩ := hb hr₁ hq'
          obtain ⟨hread'', hr₃⟩ := hn hr₂ hq''
          refine ⟨?_, hr₃⟩
          simp only [Hir.read, hread, hread', hread'']
  | ifNode i c t e n hc ht he hn =>
      intro r p hr hp
      simp only [resolverBindExpr, bind, Option.bind_eq_some_iff, Option.some.injEq] at hp
      obtain ⟨q, hq, qt, hqt, qe, hqe, q', hq', rfl⟩ := hp
      obtain ⟨hread, hr₁⟩ := hc hr hq
      obtain ⟨hreadt, hr₂⟩ := ht hr₁.enter hqt
      obtain ⟨hreade, hr₃⟩ := he hr₂.pop hqe
      obtain ⟨hread', hr₄⟩ := hn (hr₃.leave q.2) hq'
      refine ⟨?_, hr₄⟩
      simp only [Hir.read, hread, hreadt, hreade, hread']

theorem declareNames_read (xs : List String) : ∀ {r : HirResolver}, r.Named →
    (declareNames xs r).1.map sourceName = xs ∧ (declareNames xs r).2.Named := by
  induction xs with
  | nil => exact fun hr => ⟨rfl, hr⟩
  | cons x xs ih =>
      intro r hr
      obtain ⟨hread, hr'⟩ := ih (hr.declare x)
      refine ⟨?_, hr'⟩
      simp only [declareNames, List.map_cons, sourceName_symbolKey, hread]

theorem predeclare_named (h : Hir) : ∀ {r : HirResolver}, r.Named → (predeclare h r).Named := by
  induction h with
  | nil => exact fun hr => hr
  | leaf i op n hn => exact fun hr => hn hr
  | one i op a n _ hn =>
      cases op with
      | variableDecl x t => exact fun hr => hn (hr.declare x)
      | _ => exact fun hr => hn hr
  | two i op a b n _ _ hn => exact fun hr => hn hr
  | ifNode i c t e n _ _ _ hn => exact fun hr => hn hr

theorem next_skeleton (h : Hir) : h.skeleton.next = h.next.skeleton := by
  cases h <;> rfl

def Hir.isFunction : Hir → Bool
  | .one _ (.function _ _) _ _ => true
  | _ => false

theorem isFunction_skeleton (h : Hir) : h.skeleton.isFunction = h.isFunction := by
  cases h with
  | one i op a n => cases op <;> rfl
  | _ => rfl

/-- A single node other than a function is read at the root as it is inside. -/
theorem readTop_single {h : Hir} (hnext : h.next = .nil) (hfunction : h.isFunction = false) :
    h.readTop = h.read sourceName := by
  cases h with
  | nil => rfl
  | leaf i op n =>
      obtain rfl : n = .nil := hnext
      rfl
  | one i op a n =>
      obtain rfl : n = .nil := hnext
      cases op with
      | function f names => cases hfunction
      | _ => rfl
  | two i op a b n =>
      obtain rfl : n = .nil := hnext
      rfl
  | ifNode i c t e n =>
      obtain rfl : n = .nil := hnext
      rfl

theorem skeleton_eq_nil {h : Hir} (hs : h.skeleton = .nil) : h = .nil := by
  cases h with
  | nil => rfl
  | _ => cases hs

/-- **The children of the root read back.** -/
theorem resolveTop_read {globals : List HirSymbol} (hglobals : ∀ b ∈ globals, sourceName b.storageKey = b.sourceName)
    (h : Hir) : ∀ {r : HirResolver} {p : Hir × HirResolver}, r.Named → resolveTop globals h r = some p →
      p.1.readTop = h.read id := by
  -- A statement other than a function or a declaration, and the rest.
  have statement : ∀ {h n : Hir} {r : HirResolver} {p : Hir × HirResolver}, r.Named → h.next = .nil →
      h.isFunction = false →
      (∀ {r : HirResolver} {p : Hir × HirResolver}, r.Named → resolveTop globals n r = some p →
        p.1.readTop = n.read id) →
      (do let q ← resolverBindExpr h r; let q' ← resolveTop globals n q.2; some (q.1.append q'.1, q'.2)) = some p →
      p.1.readTop = (h.read id).append (n.read id) := by
    intro h n r p hr hnext hfunction hn hp
    simp only [bind, Option.bind_eq_some_iff, Option.some.injEq] at hp
    obtain ⟨q, hq, q', hq', rfl⟩ := hp
    obtain ⟨hbound, hr'⟩ := resolverBindExpr_read h hr hq
    have hskeleton := skeleton_resolverBindExpr h hq
    have hnext' : q.1.next = .nil := by
      apply skeleton_eq_nil
      rw [← next_skeleton, hskeleton, next_skeleton, hnext]
      rfl
    have hfunction' : q.1.isFunction = false := by
      rw [← isFunction_skeleton, hskeleton, isFunction_skeleton, hfunction]
    rw [readTop_append, readTop_single hnext' hfunction', hbound, hn hr' hq']
  induction h with
  | nil => intro r p _ hp; cases hp; rfl
  | leaf i op n hn => intro r p hr hp; exact statement hr rfl rfl hn hp
  | one i op a n _ hn =>
      intro r p hr hp
      cases op with
      | function f names =>
          simp only [resolveTop, bind, Option.bind_eq_some_iff, Option.some.injEq] at hp
          obtain ⟨q, hq, q', hq', rfl⟩ := hp
          obtain ⟨hnames, hr₁⟩ := declareNames_read names (r := { r with depth := 1 }) hr
          obtain ⟨hread, hr₂⟩ := resolverBindExpr_read a hr₁ hq
          have hrest := hn (hr₂.of_subset (List.drop_subset _ _)) hq'
          have hparameters : (declareNames names { r with depth := 1 }).1.map (fun x => (sourceName x, (none : Option String))) =
              names.map fun x => (x, none) := by
            conv_rhs => rw [← hnames, List.map_map]
            rfl
          simp only [Hir.readTop, Hir.read, readOne, hparameters, hread, hrest, id]
      | variableDecl x t =>
          simp only [resolveTop, bind, Option.bind_eq_some_iff, Option.some.injEq] at hp
          obtain ⟨b, hb, q, hq, q', hq', rfl⟩ := hp
          obtain ⟨hread, hr'⟩ := resolverBindExpr_read a hr hq
          have hfound := List.find?_some hb
          have hname : sourceName b.storageKey = x := by
            rw [hglobals b (List.mem_of_find?_eq_some hb)]
            exact eq_of_beq hfound
          simp only [Hir.readTop, Hir.read, readOne, hname, hread, hn hr' hq', id]
      | _ => exact statement hr rfl rfl hn hp
  | two i op a b n _ _ hn => intro r p hr hp; exact statement hr rfl rfl hn hp
  | ifNode i c t e n _ _ _ hn => intro r p hr hp; exact statement hr rfl rfl hn hp

/-- **Resolution can be undone by reading the keys.** -/
theorem resolveHirSymbols_read {i : Nat} {a n h : Hir} (h' : resolveHirSymbols (.one i .program a n) = some h) :
    h.readProgram = .one .program (a.read id) .null := by
  simp only [resolveHirSymbols, bind, Option.bind_eq_some_iff, Option.some.injEq] at h'
  obtain ⟨p, hp, rfl⟩ := h'
  have hnamed : (predeclare a ⟨[], 0, 0⟩).Named := predeclare_named a fun b hb => absurd hb List.not_mem_nil
  have hread := resolveTop_read (fun b hb => hnamed b (List.mem_reverse.mp hb)) a hnamed hp
  simp only [Hir.readProgram, hread]

/-! ## Different variables have different keys -/

/-- What a chain declares, functions inside it apart. -/
def Hir.keys : Hir → List String
  | .nil => []
  | .leaf _ _ n => n.keys
  | .one _ (.variableDecl x _) a n => a.keys ++ x :: n.keys
  | .one _ (.function _ _) _ n => n.keys
  | .one _ _ a n => a.keys ++ n.keys
  | .two _ _ a b n => a.keys ++ (b.keys ++ n.keys)
  | .ifNode _ c t e n => c.keys ++ (t.keys ++ (e.keys ++ n.keys))

/-- What the children of the root declare, with the parameters and variables of their functions. -/
def Hir.topKeys : Hir → List String
  | .nil => []
  | .leaf _ _ n => n.topKeys
  | .one _ (.variableDecl x _) a n => x :: (a.keys ++ n.topKeys)
  | .one _ (.function _ names) a n => names ++ (a.keys ++ n.topKeys)
  | .one _ _ a n => a.keys ++ n.topKeys
  | .two _ _ a b n => a.keys ++ (b.keys ++ n.topKeys)
  | .ifNode _ c t e n => c.keys ++ (t.keys ++ (e.keys ++ n.topKeys))

/-- The keys have numbers from `lo` up to `hi`, and no two are the same. -/
def Issued (lo hi : Nat) (keys : List String) : Prop :=
  ∃ ids : List (Nat × String), keys = ids.map (fun q => symbolKey q.1 q.2) ∧ ids.Nodup ∧
    ∀ q ∈ ids, lo ≤ q.1 ∧ q.1 < hi

theorem Issued.nil (lo hi : Nat) : Issued lo hi [] := ⟨[], rfl, List.nodup_nil, nofun⟩

theorem Issued.one (lo : Nat) (x : String) : Issued lo (lo + 1) [symbolKey lo x] := by
  refine ⟨[(lo, x)], rfl, List.nodup_singleton _, fun q hq => ?_⟩
  rw [List.mem_singleton.mp hq]
  exact ⟨Nat.le_refl _, Nat.lt_succ_self _⟩

theorem Issued.append {lo mid hi : Nat} {a b : List String} (ha : Issued lo mid a) (hb : Issued mid hi b)
    (hlo : lo ≤ mid) (hhi : mid ≤ hi) : Issued lo hi (a ++ b) := by
  obtain ⟨as, rfl, hna, has⟩ := ha
  obtain ⟨bs, rfl, hnb, hbs⟩ := hb
  refine ⟨as ++ bs, List.map_append.symm, ?_, ?_⟩
  · apply List.Nodup.append hna hnb
    intro q hqa hqb
    have hlt := (has q hqa).2
    have hle := (hbs q hqb).1
    omega
  · intro q hq
    rcases List.mem_append.mp hq with hq | hq
    · obtain ⟨hle, hlt⟩ := has q hq
      exact ⟨hle, by omega⟩
    · obtain ⟨hle, hlt⟩ := hbs q hq
      exact ⟨by omega, hlt⟩

theorem nodup_symbolKeys {ids : List (Nat × String)} (h : ids.Nodup) : (ids.map fun q => symbolKey q.1 q.2).Nodup := by
  apply h.map
  intro q q' heq
  obtain ⟨hnumber, hname⟩ := symbolKey_injective heq
  exact Prod.ext hnumber hname

theorem resolverBindExpr_issued (h : Hir) : ∀ {r : HirResolver} {p : Hir × HirResolver},
    resolverBindExpr h r = some p → r.nextId ≤ p.2.nextId ∧ Issued r.nextId p.2.nextId p.1.keys := by
  induction h with
  | nil => intro r p hp; cases hp; exact ⟨Nat.le_refl _, .nil _ _⟩
  | leaf i op n hn =>
      intro r p hp
      cases op with
      | «variable» x =>
          simp only [resolverBindExpr, bind, Option.bind_eq_some_iff, Option.some.injEq] at hp
          obtain ⟨b, -, q, hq, rfl⟩ := hp
          have hrest := hn hq
          exact hrest
      | _ =>
          simp only [resolverBindExpr, bind, Option.bind_eq_some_iff, Option.some.injEq] at hp
          obtain ⟨q, hq, rfl⟩ := hp
          have hrest := hn hq
          exact hrest
  | one i op a n ha hn =>
      intro r p hp
      cases op with
      | function f names =>
          simp only [resolverBindExpr, bind, Option.bind_eq_some_iff, Option.some.injEq] at hp
          obtain ⟨q, hq, rfl⟩ := hp
          have hrest := hn hq
          exact hrest
      | variableDecl x t =>
          simp only [resolverBindExpr, bind, Option.bind_eq_some_iff, Option.some.injEq] at hp
          obtain ⟨q, hq, q', hq', rfl⟩ := hp
          obtain ⟨hle, hkeys⟩ := ha hq
          obtain ⟨hle', hkeys'⟩ := hn hq'
          have hdeclared : q.2.nextId + 1 ≤ q'.2.nextId := hle'
          have hlater := (Issued.one q.2.nextId x).append hkeys' (Nat.le_succ _) hdeclared
          have hup : q.2.nextId ≤ q'.2.nextId := Nat.le_of_succ_le hdeclared
          exact ⟨Nat.le_trans hle hup, hkeys.append hlater hle hup⟩
      | reassign x t =>
          simp only [resolverBindExpr, bind, Option.bind_eq_some_iff, Option.some.injEq] at hp
          obtain ⟨q, hq, b, -, q', hq', rfl⟩ := hp
          obtain ⟨hle, hkeys⟩ := ha hq
          obtain ⟨hle', hkeys'⟩ := hn hq'
          exact ⟨Nat.le_trans hle hle', hkeys.append hkeys' hle hle'⟩
      | _ =>
          simp only [resolverBindExpr, bind, Option.bind_eq_some_iff, Option.some.injEq] at hp
          obtain ⟨q, hq, q', hq', rfl⟩ := hp
          obtain ⟨hle, hkeys⟩ := ha hq
          obtain ⟨hle', hkeys'⟩ := hn hq'
          exact ⟨Nat.le_trans hle hle', hkeys.append hkeys' hle hle'⟩
  | two i op a b n ha hb hn =>
      intro r p hp
      cases op <;>
      · simp only [resolverBindExpr, bind, Option.bind_eq_some_iff, Option.some.injEq] at hp
        obtain ⟨q, hq, q', hq', q'', hq'', rfl⟩ := hp
        obtain ⟨hle, hkeys⟩ := ha hq
        obtain ⟨hle', hkeys'⟩ := hb hq'
        obtain ⟨hle'', hkeys''⟩ := hn hq''
        have hrest := hkeys'.append hkeys'' hle' hle''
        exact ⟨Nat.le_trans hle (Nat.le_trans hle' hle''), hkeys.append hrest hle (Nat.le_trans hle' hle'')⟩
  | ifNode i c t e n hc ht he hn =>
      intro r p hp
      simp only [resolverBindExpr, bind, Option.bind_eq_some_iff, Option.some.injEq] at hp
      obtain ⟨q, hq, qt, hqt, qe, hqe, q', hq', rfl⟩ := hp
      obtain ⟨hle, hkeys⟩ := hc hq
      obtain ⟨hlet, hkeyst⟩ := ht hqt
      obtain ⟨hlee, hkeyse⟩ := he hqe
      obtain ⟨hle', hkeys'⟩ := hn hq'
      have hrest := hkeyse.append hkeys' hlee hle'
      have hbranches := hkeyst.append hrest hlet (Nat.le_trans hlee hle')
      have hup := Nat.le_trans hlet (Nat.le_trans hlee hle')
      exact ⟨Nat.le_trans hle hup, hkeys.append hbranches hle hup⟩

theorem declareNames_issued (xs : List String) : ∀ r : HirResolver,
    r.nextId ≤ (declareNames xs r).2.nextId ∧ Issued r.nextId (declareNames xs r).2.nextId (declareNames xs r).1 := by
  induction xs with
  | nil => exact fun r => ⟨Nat.le_refl _, .nil _ _⟩
  | cons x xs ih =>
      intro r
      obtain ⟨hle, hkeys⟩ := ih (r.declare x)
      have hdeclared : r.nextId + 1 ≤ (declareNames xs (r.declare x)).2.nextId := hle
      exact ⟨Nat.le_of_succ_le hdeclared, (Issued.one r.nextId x).append hkeys (Nat.le_succ _) hdeclared⟩

theorem predeclare_issued (h : Hir) : ∀ {r : HirResolver},
    (∀ b ∈ r.symbols, ∃ g < r.nextId, b.storageKey = symbolKey g b.sourceName) →
    ∀ b ∈ (predeclare h r).symbols, ∃ g < (predeclare h r).nextId, b.storageKey = symbolKey g b.sourceName := by
  induction h with
  | nil => exact fun hr => hr
  | leaf i op n hn => exact fun hr => hn hr
  | one i op a n _ hn =>
      cases op with
      | variableDecl x t =>
          intro r hr
          apply hn
          intro b hb
          rcases List.mem_cons.mp hb with rfl | hb
          · exact ⟨r.nextId, Nat.lt_succ_self _, rfl⟩
          · obtain ⟨g, hg, hkey⟩ := hr b hb
            exact ⟨g, Nat.lt_succ_of_lt hg, hkey⟩
      | _ => exact fun hr => hn hr
  | two i op a b n _ _ hn => exact fun hr => hn hr
  | ifNode i c t e n _ _ _ hn => exact fun hr => hn hr

/-- Keys of which some are globals, numbered below `m`, and the others are issued from `lo` up to `hi`. -/
def Mixed (m lo hi : Nat) (names keys : List String) : Prop :=
  ∃ ids : List (Nat × String), keys = ids.map (fun q => symbolKey q.1 q.2) ∧ ids.Nodup ∧
    ∀ q ∈ ids, (q.1 < m ∧ q.2 ∈ names) ∨ (lo ≤ q.1 ∧ q.1 < hi)

theorem Issued.mixed {m lo mid hi : Nat} {names keys rest : List String} (h : Issued lo mid keys)
    (hrest : Mixed m mid hi names rest) (hm : m ≤ lo) (hlo : lo ≤ mid) (hhi : mid ≤ hi) :
    Mixed m lo hi names (keys ++ rest) := by
  obtain ⟨as, rfl, hna, has⟩ := h
  obtain ⟨bs, rfl, hnb, hbs⟩ := hrest
  refine ⟨as ++ bs, List.map_append.symm, ?_, ?_⟩
  · apply List.Nodup.append hna hnb
    intro q hqa hqb
    obtain ⟨hle, hlt⟩ := has q hqa
    rcases hbs q hqb with hglobal | hissued
    · omega
    · omega
  · intro q hq
    rcases List.mem_append.mp hq with hq | hq
    · obtain ⟨hle, hlt⟩ := has q hq
      exact Or.inr ⟨hle, by omega⟩
    · rcases hbs q hq with hglobal | hissued
      · exact Or.inl hglobal
      · exact Or.inr ⟨by omega, hissued.2⟩

theorem Mixed.cons {m lo hi g : Nat} {x : String} {names keys : List String} (h : Mixed m lo hi names keys)
    (hx : x ∉ names) (hg : g < m) (hm : m ≤ lo) : Mixed m lo hi (x :: names) (symbolKey g x :: keys) := by
  obtain ⟨ids, rfl, hnodup, hids⟩ := h
  refine ⟨(g, x) :: ids, rfl, ?_, ?_⟩
  · rw [List.nodup_cons]
    refine ⟨fun hmem => ?_, hnodup⟩
    rcases hids _ hmem with hglobal | hissued
    · exact hx hglobal.2
    · have hle : lo ≤ g := hissued.1
      omega
  · intro q hq
    rcases List.mem_cons.mp hq with rfl | hq
    · exact Or.inl ⟨hg, List.mem_cons_self⟩
    · rcases hids q hq with hglobal | hissued
      · exact Or.inl ⟨hglobal.1, List.mem_cons_of_mem _ hglobal.2⟩
      · exact Or.inr hissued

theorem topKeys_append (h h' : Hir) : (h.append h').topKeys = h.topKeys ++ h'.topKeys := by
  induction h with
  | nil => rfl
  | leaf i op n hn => simp only [Hir.append, Hir.topKeys, hn]
  | one i op a n _ hn => cases op <;> simp only [Hir.append, Hir.topKeys, hn, List.append_assoc, List.cons_append]
  | two i op a b n _ _ hn => simp only [Hir.append, Hir.topKeys, hn, List.append_assoc]
  | ifNode i c t e n _ _ _ hn => simp only [Hir.append, Hir.topKeys, hn, List.append_assoc]

/-- A single node other than a function or a declaration declares at the root what it declares inside. -/
theorem topKeys_single {h : Hir} (hnext : h.next = .nil) (hfunction : h.isFunction = false)
    (hdeclares : h.rootDeclared = []) : h.topKeys = h.keys := by
  cases h with
  | nil => rfl
  | leaf i op n =>
      obtain rfl : n = .nil := hnext
      rfl
  | one i op a n =>
      obtain rfl : n = .nil := hnext
      cases op with
      | function f names => cases hfunction
      | variableDecl x t => cases hdeclares
      | _ => rfl
  | two i op a b n =>
      obtain rfl : n = .nil := hnext
      rfl
  | ifNode i c t e n =>
      obtain rfl : n = .nil := hnext
      rfl

theorem rootDeclared_skeleton (h : Hir) : h.skeleton.rootDeclared.length = h.rootDeclared.length := by
  induction h with
  | nil => rfl
  | leaf i op n hn => simp only [Hir.skeleton, Hir.rootDeclared, hn]
  | one i op a n _ hn =>
      cases op <;> simp only [Hir.skeleton, HirOne.outline, Hir.rootDeclared, List.length_cons, hn]
  | two i op a b n _ _ hn => simp only [Hir.skeleton, Hir.rootDeclared, hn]
  | ifNode i c t e n _ _ _ hn => simp only [Hir.skeleton, Hir.rootDeclared, hn]

/-- **The keys at the root and in its functions are issued, or are those of the globals.** -/
theorem resolveTop_issued {globals : List HirSymbol} {m : Nat}
    (hglobals : ∀ b ∈ globals, ∃ g < m, b.storageKey = symbolKey g b.sourceName) (h : Hir) :
    ∀ {r : HirResolver} {p : Hir × HirResolver}, m ≤ r.nextId → h.rootDeclared.Nodup → resolveTop globals h r = some p →
      r.nextId ≤ p.2.nextId ∧ Mixed m r.nextId p.2.nextId h.rootDeclared p.1.topKeys := by
  -- A statement other than a function or a declaration, and the rest.
  have statement : ∀ {h n : Hir} {r : HirResolver} {p : Hir × HirResolver}, m ≤ r.nextId → h.next = .nil →
      h.isFunction = false → h.rootDeclared = [] →
      (∀ {r : HirResolver} {p : Hir × HirResolver}, m ≤ r.nextId → resolveTop globals n r = some p →
        r.nextId ≤ p.2.nextId ∧ Mixed m r.nextId p.2.nextId n.rootDeclared p.1.topKeys) →
      (do let q ← resolverBindExpr h r; let q' ← resolveTop globals n q.2; some (q.1.append q'.1, q'.2)) = some p →
      r.nextId ≤ p.2.nextId ∧ Mixed m r.nextId p.2.nextId n.rootDeclared p.1.topKeys := by
    intro h n r p hm hnext hfunction hdeclares hn hp
    simp only [bind, Option.bind_eq_some_iff, Option.some.injEq] at hp
    obtain ⟨q, hq, q', hq', rfl⟩ := hp
    obtain ⟨hle, hkeys⟩ := resolverBindExpr_issued h hq
    obtain ⟨hle', hmixed⟩ := hn (Nat.le_trans hm hle) hq'
    have hskeleton := skeleton_resolverBindExpr h hq
    have hnext' : q.1.next = .nil := by
      apply skeleton_eq_nil
      rw [← next_skeleton, hskeleton, next_skeleton, hnext]
      rfl
    have hfunction' : q.1.isFunction = false := by
      rw [← isFunction_skeleton, hskeleton, isFunction_skeleton, hfunction]
    have hdeclares' : q.1.rootDeclared = [] := by
      rw [← List.length_eq_zero_iff, ← rootDeclared_skeleton, hskeleton, rootDeclared_skeleton, hdeclares]
      rfl
    refine ⟨Nat.le_trans hle hle', ?_⟩
    show Mixed m r.nextId q'.2.nextId n.rootDeclared (q.1.append q'.1).topKeys
    rw [topKeys_append, topKeys_single hnext' hfunction' hdeclares']
    exact hkeys.mixed hmixed hm hle hle'
  induction h with
  | nil => intro r p _ _ hp; cases hp; exact ⟨Nat.le_refl _, [], rfl, List.nodup_nil, nofun⟩
  | leaf i op n hn =>
      intro r p hm hnodup hp
      exact statement (h := .leaf i op .nil) (n := n) hm rfl rfl rfl (fun hm' => hn hm' hnodup) hp
  | one i op a n _ hn =>
      intro r p hm hnodup hp
      cases op with
      | function f names =>
          simp only [resolveTop, bind, Option.bind_eq_some_iff, Option.some.injEq] at hp
          obtain ⟨q, hq, q', hq', rfl⟩ := hp
          obtain ⟨hle, hnames⟩ := declareNames_issued names { r with depth := 1 }
          obtain ⟨hle', hkeys⟩ := resolverBindExpr_issued a hq
          have hm' : m ≤ q.2.nextId := Nat.le_trans hm (Nat.le_trans hle hle')
          obtain ⟨hle'', hmixed⟩ := hn (r := { q.2 with
            symbols := q.2.symbols.drop (q.2.symbols.length - r.symbols.length), depth := 0 }) hm' hnodup hq'
          have hbody := hkeys.mixed hmixed (Nat.le_trans hm hle) hle' hle''
          have hup := Nat.le_trans hle' hle''
          exact ⟨Nat.le_trans hle hup, hnames.mixed hbody hm hle hup⟩
      | variableDecl x t =>
          simp only [resolveTop, bind, Option.bind_eq_some_iff, Option.some.injEq] at hp
          obtain ⟨b, hb, q, hq, q', hq', rfl⟩ := hp
          obtain ⟨hx, hnodup'⟩ := List.nodup_cons.mp hnodup
          obtain ⟨hle, hkeys⟩ := resolverBindExpr_issued a hq
          obtain ⟨hle', hmixed⟩ := hn (Nat.le_trans hm hle) hnodup' hq'
          obtain ⟨g, hg, hkey⟩ := hglobals b (List.mem_of_find?_eq_some hb)
          have hfound := List.find?_some hb
          have hname : b.sourceName = x := eq_of_beq hfound
          have hrest := (hkeys.mixed hmixed hm hle hle').cons hx hg hm
          rw [hname] at hkey
          refine ⟨Nat.le_trans hle hle', ?_⟩
          show Mixed m r.nextId q'.2.nextId (x :: n.rootDeclared) (b.storageKey :: (q.1.keys ++ q'.1.topKeys))
          rw [hkey]
          exact hrest
      | _ => exact statement (h := .one i _ a .nil) (n := n) hm rfl rfl rfl (fun hm' => hn hm' hnodup) hp
  | two i op a b n _ _ hn =>
      intro r p hm hnodup hp
      exact statement (h := .two i op a b .nil) (n := n) hm rfl rfl rfl (fun hm' => hn hm' hnodup) hp
  | ifNode i c t e n _ _ _ hn =>
      intro r p hm hnodup hp
      exact statement (h := .ifNode i c t e .nil) (n := n) hm rfl rfl rfl (fun hm' => hn hm' hnodup) hp

/-- The storage keys that a program declares. -/
def Hir.storageKeys : Hir → List String
  | .one _ .program a _ => a.topKeys
  | _ => []

/-- **No two variables have the same key.** -/
theorem resolveHirSymbols_storageKeys {i : Nat} {a n h : Hir} (hnodup : a.rootDeclared.Nodup)
    (h' : resolveHirSymbols (.one i .program a n) = some h) : h.storageKeys.Nodup := by
  simp only [resolveHirSymbols, bind, Option.bind_eq_some_iff, Option.some.injEq] at h'
  obtain ⟨p, hp, rfl⟩ := h'
  have hissued := predeclare_issued a (r := ⟨[], 0, 0⟩) fun b hb => absurd hb List.not_mem_nil
  obtain ⟨-, ids, hkeys, hids, -⟩ := resolveTop_issued (fun b hb => hissued b (List.mem_reverse.mp hb)) a
    (Nat.le_refl _) hnodup hp
  show p.1.topKeys.Nodup
  rw [hkeys]
  exact nodup_symbolKeys hids

end Vnt
