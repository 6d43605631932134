import Vnt.Cfg.Build

/-!
# `Cfg.Paths` — what a graph path and a structured run have in common

Both sides are read as sets of finite event sequences: statements executed and conditions evaluated with
their outcome. `Path` walks the graph, `Runs` executes the nested statements. A literal condition is never
evaluated at run time: on both sides it takes its own branch and leaves no event, which is what lets the graph
be compared before and after its constant branches are folded.
-/

namespace Vnt

/-! ## Events -/

inductive CfgEvent where
  | statement (node : Hir)
  | test (condition : Hir) (outcome : Bool)
  deriving DecidableEq, Repr

/-- `condition` may come out as `outcome`, with these events. -/
def Tests (condition : Hir) (outcome : Bool) (es : List CfgEvent) : Prop :=
  match literalCondition condition with
  | some b => outcome = b ∧ es = []
  | none => es = [.test condition outcome]

/-! ## Paths of a graph -/

/-- One edge out of a block, with what happens in the block. -/
def VntCfgBlock.Steps (block : VntCfgBlock) (es : List CfgEvent) (target : Nat) : Prop :=
  match block.terminator with
  | .branch => ∃ c outcome, block.condition = some c ∧ Tests c outcome es ∧
      (if outcome then block.trueSuccessor else block.falseSuccessor) = some target
  | .exit => False
  | _ => block.trueSuccessor = some target ∧ es = block.instruction.toList.map .statement

/-- `Path blocks k b es b'`: `k` edges lead from `b` to `b'`, with the events `es`. -/
inductive Path (blocks : List VntCfgBlock) : Nat → Nat → List CfgEvent → Nat → Prop
  | refl (b : Nat) : Path blocks 0 b [] b
  | step {k b m b' : Nat} {block : VntCfgBlock} {es es' : List CfgEvent} (at_ : blocks[b]? = some block)
      (edge : block.Steps es m) (rest : Path blocks k m es' b') : Path blocks (k + 1) b (es ++ es') b'

theorem Path.trans {blocks : List VntCfgBlock} {k k' b m b' : Nat} {es es' : List CfgEvent}
    (h : Path blocks k b es m) (h' : Path blocks k' m es' b') : Path blocks (k + k') b (es ++ es') b' := by
  induction h with
  | refl b => rw [Nat.zero_add]; exact h'
  | step at_ edge _ ih =>
      rw [List.append_assoc, Nat.succ_add]
      exact .step at_ edge (ih h')

/-! ## Structured runs -/

/-- How a run of a statement sequence ends; `cut` is a run observed only up to some point. -/
inductive Outcome where
  | normal | broke | continued | returned | cut
  deriving DecidableEq, Repr

/-- The run has reached the end of the program, or of its function. -/
def Outcome.finishes : Outcome → Bool
  | .normal | .returned => true
  | _ => false

/-- Statements that run and then go on with the next one. -/
def HirLeaf.isPlain : HirLeaf → Bool
  | .breakNode | .continueNode | .struct _ _ => false
  | _ => true

def HirOne.isPlain : HirOne → Bool
  | .program | .function _ _ | .returnNode => false
  | _ => true

def HirTwo.isPlain : HirTwo → Bool
  | .whileNode => false
  | _ => true

/-- The structured semantics of a statement sequence. Declarations of functions and structs do nothing. -/
inductive Runs : Hir → List CfgEvent → Outcome → Prop
  | nil : Runs .nil [] .normal
  | cut (h : Hir) : Runs h [] .cut
  | leaf {i op n es o} (plain : op.isPlain = true) (rest : Runs n es o) :
      Runs (.leaf i op n) (.statement (.leaf i op .nil) :: es) o
  | one {i op a n es o} (plain : op.isPlain = true) (rest : Runs n es o) :
      Runs (.one i op a n) (.statement (.one i op a .nil) :: es) o
  | two {i op a b n es o} (plain : op.isPlain = true) (rest : Runs n es o) :
      Runs (.two i op a b n) (.statement (.two i op a b .nil) :: es) o
  | struct {i name names n es o} (rest : Runs n es o) : Runs (.leaf i (.struct name names) n) es o
  | function {i name names a n es o} (rest : Runs n es o) : Runs (.one i (.function name names) a n) es o
  | break_ {i n} : Runs (.leaf i .breakNode n) [.statement (.leaf i .breakNode .nil)] .broke
  | continue_ {i n} : Runs (.leaf i .continueNode n) [.statement (.leaf i .continueNode .nil)] .continued
  | return_ {i a n} : Runs (.one i .returnNode a n) [.statement (.one i .returnNode a .nil)] .returned
  | program {i a n es es' o} (block : Runs a es .normal) (rest : Runs n es' o) :
      Runs (.one i .program a n) (es ++ es') o
  | programOut {i a n es o} (block : Runs a es o) (out : o ≠ .normal) : Runs (.one i .program a n) es o
  | arm {i c t e n outcome es es' es'' o} (test : Tests c.head outcome es)
      (block : Runs (if outcome then t else e) es' .normal) (rest : Runs n es'' o) :
      Runs (.ifNode i c t e n) (es ++ (es' ++ es'')) o
  | armOut {i c t e n outcome es es' o} (test : Tests c.head outcome es)
      (block : Runs (if outcome then t else e) es' o) (out : o ≠ .normal) :
      Runs (.ifNode i c t e n) (es ++ es') o
  | done {i c b n es es' o} (test : Tests c.head false es) (rest : Runs n es' o) :
      Runs (.two i .whileNode c b n) (es ++ es') o
  | again {i c b n es es' es'' o o'} (test : Tests c.head true es) (block : Runs b es' o')
      (round : o' = .normal ∨ o' = .continued) (rest : Runs (.two i .whileNode c b n) es'' o) :
      Runs (.two i .whileNode c b n) (es ++ (es' ++ es'')) o
  | left {i c b n es es' es'' o} (test : Tests c.head true es) (block : Runs b es' .broke)
      (rest : Runs n es'' o) : Runs (.two i .whileNode c b n) (es ++ (es' ++ es'')) o
  | loopOut {i c b n es es' o} (test : Tests c.head true es) (block : Runs b es' o)
      (out : o = .returned ∨ o = .cut) : Runs (.two i .whileNode c b n) (es ++ es') o

/-! ## Where a sequence was built -/

/-- The blocks of the chain `h`, entered at `e` and left towards `next`. -/
def Built (blocks : List VntCfgBlock) : Hir → Nat → Nat → Option Nat → Option Nat → Prop
  | .nil, e, next, _, _ => e = next
  | .leaf i op n, e, next, break_, continue_ => ∃ m, Built blocks n m next break_ continue_ ∧
      match op with
      | .breakNode => ∃ t, break_ = some t ∧ blocks[e]? = some (straight (.leaf i op .nil) t .jump)
      | .continueNode => ∃ t, continue_ = some t ∧ blocks[e]? = some (straight (.leaf i op .nil) t .jump)
      | .struct _ _ => e = m
      | _ => blocks[e]? = some (straight (.leaf i op .nil) m .fallthrough)
  | .one i op a n, e, next, break_, continue_ => ∃ m, Built blocks n m next break_ continue_ ∧
      match op with
      | .program => Built blocks a e m break_ continue_
      | .returnNode => blocks[e]? = some (straight (.one i op a .nil) 0 .returnNode)
      | .function _ _ => e = m
      | _ => blocks[e]? = some (straight (.one i op a .nil) m .fallthrough)
  | .two i op a b n, e, next, break_, continue_ => ∃ m, Built blocks n m next break_ continue_ ∧
      match op with
      | .whileNode => ∃ body, blocks[e]? = some (branching a.head (some body) m) ∧
          Built blocks b body e (some m) (some e)
      | _ => blocks[e]? = some (straight (.two i op a b .nil) m .fallthrough)
  | .ifNode _ c t e' n, e, next, break_, continue_ => ∃ m yes no, Built blocks n m next break_ continue_ ∧
      Built blocks t yes m break_ continue_ ∧ Built blocks e' no m break_ continue_ ∧
      blocks[e]? = some (branching c.head (some yes) no)

/-- The block a finished sequence goes on with. -/
def Outcome.target (next : Nat) (break_ continue_ : Option Nat) : Outcome → Nat → Prop
  | .normal, b => b = next
  | .broke, b => break_ = some b
  | .continued, b => continue_ = some b
  | .returned, b => b = 0
  | .cut, _ => True

/-! ## Edges of the blocks that are built -/

theorem steps_straight {node : Hir} {next : Nat} {term : VntCfgTerminator} (h : term ≠ .branch)
    (h' : term ≠ .exit) {es : List CfgEvent} {t : Nat} :
    (straight node next term).Steps es t ↔ next = t ∧ es = [.statement node] := by
  unfold VntCfgBlock.Steps straight
  cases term <;> simp_all

theorem steps_branching {c : Hir} {yes no : Nat} {es : List CfgEvent} {t : Nat} :
    (branching c (some yes) no).Steps es t ↔
      ∃ outcome, Tests c outcome es ∧ (if outcome then yes else no) = t := by
  simp only [VntCfgBlock.Steps, branching, Option.some.injEq]
  constructor
  · rintro ⟨_, outcome, rfl, ht, h⟩
    refine ⟨outcome, ht, ?_⟩
    cases outcome <;> simpa using h
  · rintro ⟨outcome, ht, h⟩
    refine ⟨c, outcome, rfl, ht, ?_⟩
    cases outcome <;> simpa using h

/-- One edge from a block of known shape. -/
theorem Path.straight {blocks : List VntCfgBlock} {b next : Nat} {node : Hir} {term : VntCfgTerminator}
    (at_ : blocks[b]? = some (straight node next term)) (h : term ≠ .branch) (h' : term ≠ .exit) :
    Path blocks 1 b [.statement node] next := by
  have edge : (Vnt.straight node next term).Steps [.statement node] next :=
    (steps_straight h h').mpr ⟨rfl, rfl⟩
  exact .step at_ edge (.refl next)

theorem Path.branching {blocks : List VntCfgBlock} {b yes no : Nat} {c : Hir} {outcome : Bool}
    {es : List CfgEvent} (at_ : blocks[b]? = some (branching c (some yes) no)) (test : Tests c outcome es) :
    Path blocks 1 b es (if outcome then yes else no) := by
  have h := Path.step at_ (steps_branching.mpr ⟨outcome, test, rfl⟩) (.refl _)
  rwa [List.append_nil] at h

/-! ## A run is a path -/

section Simulation

variable {blocks : List VntCfgBlock}

theorem built_arm {t e : Hir} {yes no m : Nat} {break_ continue_ : Option Nat} (outcome : Bool)
    (ht : Built blocks t yes m break_ continue_) (he : Built blocks e no m break_ continue_) :
    Built blocks (if outcome then t else e) (if outcome then yes else no) m break_ continue_ := by
  cases outcome
  · exact he
  · exact ht

/-- Every structured run follows the graph, to the block its outcome stands for. -/
theorem Runs.path {h : Hir} {es : List CfgEvent} {o : Outcome} (hr : Runs h es o) :
    ∀ {e next : Nat} {break_ continue_ : Option Nat}, Built blocks h e next break_ continue_ →
      ∃ k b, Path blocks k e es b ∧ o.target next break_ continue_ b := by
  induction hr with
  | nil => intro e next _ _ hb; exact ⟨0, e, .refl e, hb⟩
  | cut h => intro e _ _ _ _; exact ⟨0, e, .refl e, trivial⟩
  | @leaf i op n es o plain _ ih =>
      rintro e next _ _ ⟨m, hn, hb⟩
      have hb' : blocks[e]? = some (straight (.leaf i op .nil) m .fallthrough) := by
        cases op <;> first | exact hb | exact Bool.noConfusion plain
      obtain ⟨k, b, hp, ht⟩ := ih hn
      exact ⟨1 + k, b, (Path.straight hb' (by decide) (by decide)).trans hp, ht⟩
  | @one i op a n es o plain _ ih =>
      rintro e next _ _ ⟨m, hn, hb⟩
      have hb' : blocks[e]? = some (straight (.one i op a .nil) m .fallthrough) := by
        cases op <;> first | exact hb | exact Bool.noConfusion plain
      obtain ⟨k, b, hp, ht⟩ := ih hn
      exact ⟨1 + k, b, (Path.straight hb' (by decide) (by decide)).trans hp, ht⟩
  | @two i op a b n es o plain _ ih =>
      rintro e next _ _ ⟨m, hn, hb⟩
      have hb' : blocks[e]? = some (straight (.two i op a b .nil) m .fallthrough) := by
        cases op <;> first | exact hb | exact Bool.noConfusion plain
      obtain ⟨k, b', hp, ht⟩ := ih hn
      exact ⟨1 + k, b', (Path.straight hb' (by decide) (by decide)).trans hp, ht⟩
  | struct _ ih =>
      rintro e next _ _ ⟨m, hn, rfl⟩
      exact ih hn
  | function _ ih =>
      rintro e next _ _ ⟨m, hn, rfl⟩
      exact ih hn
  | break_ =>
      rintro e next _ _ ⟨m, _, t, ht, hb⟩
      exact ⟨1, t, Path.straight hb (by decide) (by decide), ht⟩
  | continue_ =>
      rintro e next _ _ ⟨m, _, t, ht, hb⟩
      exact ⟨1, t, Path.straight hb (by decide) (by decide), ht⟩
  | return_ =>
      rintro e next _ _ ⟨m, _, hb⟩
      exact ⟨1, 0, Path.straight hb (by decide) (by decide), rfl⟩
  | program _ _ iha ihn =>
      rintro e next _ _ ⟨m, hn, ha⟩
      obtain ⟨k, b, hp, rfl⟩ := iha ha
      obtain ⟨k', b', hp', ht⟩ := ihn hn
      exact ⟨k + k', b', hp.trans hp', ht⟩
  | @programOut i a n es o _ out iha =>
      rintro e next _ _ ⟨m, _, ha⟩
      obtain ⟨k, b, hp, ht⟩ := iha ha
      refine ⟨k, b, hp, ?_⟩
      cases o <;> first | exact ht | exact absurd rfl out
  | @arm i c t e' n outcome es es' es'' o test _ _ ihb ihn =>
      rintro e next _ _ ⟨m, yes, no, hn, ht, he, hb⟩
      have harm := built_arm outcome ht he
      obtain ⟨k, b, hp, rfl⟩ := ihb harm
      obtain ⟨k', b', hp', htar⟩ := ihn hn
      exact ⟨_, b', (Path.branching hb test).trans (hp.trans hp'), htar⟩
  | @armOut i c t e' n outcome es es' o test _ out ihb =>
      rintro e next _ _ ⟨m, yes, no, _, ht, he, hb⟩
      have harm := built_arm outcome ht he
      obtain ⟨k, b, hp, htar⟩ := ihb harm
      refine ⟨_, b, (Path.branching hb test).trans hp, ?_⟩
      cases o <;> first | exact htar | exact absurd rfl out
  | done test _ ihn =>
      rintro e next _ _ ⟨m, hn, body, hb, _⟩
      obtain ⟨k, b, hp, ht⟩ := ihn hn
      exact ⟨_, b, (Path.branching hb test).trans hp, ht⟩
  | @again i c b n es es' es'' o o' test _ round _ ihb ihr =>
      rintro e next _ _ ⟨m, hn, body, hb, hbody⟩
      obtain ⟨k, b', hp, htar⟩ := ihb hbody
      -- the end of the body and `continue` both lead back to the test
      have hback : b' = e := by
        rcases round with rfl | rfl
        · exact htar
        · exact (Option.some.inj htar).symm
      subst hback
      obtain ⟨k', b'', hp', ht⟩ := ihr ⟨m, hn, body, hb, hbody⟩
      exact ⟨_, b'', (Path.branching hb test).trans (hp.trans hp'), ht⟩
  | left test _ _ ihb ihn =>
      rintro e next _ _ ⟨m, hn, body, hb, hbody⟩
      obtain ⟨k, b', hp, htar⟩ := ihb hbody
      obtain ⟨k', b'', hp', ht⟩ := ihn (Option.some.inj htar ▸ hn)
      exact ⟨_, b'', (Path.branching hb test).trans (hp.trans hp'), ht⟩
  | loopOut test _ out ihb =>
      rintro e next _ _ ⟨m, hn, body, hb, hbody⟩
      obtain ⟨k, b', hp, htar⟩ := ihb hbody
      refine ⟨_, b', (Path.branching hb test).trans hp, ?_⟩
      rcases out with rfl | rfl
      · exact htar
      · trivial

/-! ## A path is a run -/

/-- A block inside a sequence: not the exit. -/
def IsInner (blocks : List VntCfgBlock) (b : Nat) : Prop :=
  ∃ block, blocks[b]? = some block ∧ block.terminator ≠ .exit

/-- A path of `k` edges that starts in the sequence `h`: either it stays inside, or a finished run of `h` is
    its first part and the rest goes on where the outcome leads. -/
def Decomposed (blocks : List VntCfgBlock) (h : Hir) (next : Nat) (break_ continue_ : Option Nat) (k : Nat)
    (es : List CfgEvent) (b : Nat) : Prop :=
  (Runs h es .cut ∧ IsInner blocks b) ∨
    ∃ k' es₁ es₂ o t, k' ≤ k ∧ es = es₁ ++ es₂ ∧ Runs h es₁ o ∧ o ≠ .cut ∧
      o.target next break_ continue_ t ∧ Path blocks k' t es₂ b

/-- The first edge of a path from a block of known shape. -/
theorem Path.uncons {k b b' : Nat} {es : List CfgEvent} {block : VntCfgBlock} (hp : Path blocks k b es b')
    (at_ : blocks[b]? = some block) :
    (k = 0 ∧ es = [] ∧ b' = b) ∨ ∃ k' es₁ es₂ m, k = k' + 1 ∧ es = es₁ ++ es₂ ∧ block.Steps es₁ m ∧
      Path blocks k' m es₂ b' := by
  cases hp with
  | refl => exact .inl ⟨rfl, rfl, rfl⟩
  | @step k' _ m _ block' es₁ es₂ at' edge rest =>
      rw [at'] at at_
      cases at_
      exact .inr ⟨k', es₁, es₂, m, rfl, rfl, edge, rest⟩

/-- A plain statement in front of a decomposed rest. -/
theorem decomposed_plain {h n node : Hir} {e m next k b : Nat} {break_ continue_ : Option Nat}
    {es : List CfgEvent} (at_ : blocks[e]? = some (straight node m .fallthrough))
    (rule : ∀ {es o}, Runs n es o → Runs h (.statement node :: es) o)
    (hp : Path blocks k e es b)
    (hn : ∀ k' es', k' ≤ k → Path blocks k' m es' b → Decomposed blocks n next break_ continue_ k' es' b) :
    Decomposed blocks h next break_ continue_ k es b := by
  rcases hp.uncons at_ with ⟨rfl, rfl, rfl⟩ | ⟨k', es₁, es₂, m', rfl, rfl, edge, rest⟩
  · exact .inl ⟨.cut h, _, at_, VntCfgTerminator.noConfusion⟩
  · obtain ⟨rfl, rfl⟩ := (steps_straight (by decide) (by decide)).mp edge
    rcases hn k' es₂ (by omega) rest with ⟨hr, hi⟩ | ⟨k'', es₃, es₄, o, t, hk, rfl, hr, ho, ht, hp'⟩
    · exact .inl ⟨rule hr, hi⟩
    · exact .inr ⟨k'', _, es₄, o, t, by omega, rfl, rule hr, ho, ht, hp'⟩

/-- An exit statement: the path leaves right behind it. -/
theorem decomposed_exit {h node : Hir} {e target next k b : Nat} {break_ continue_ : Option Nat}
    {es : List CfgEvent} {term : VntCfgTerminator} {o : Outcome}
    (at_ : blocks[e]? = some (straight node target term)) (hterm : term ≠ .branch) (hterm' : term ≠ .exit)
    (hr : Runs h [.statement node] o) (ho : o ≠ .cut) (ht : o.target next break_ continue_ target)
    (hp : Path blocks k e es b) : Decomposed blocks h next break_ continue_ k es b := by
  rcases hp.uncons at_ with ⟨rfl, rfl, rfl⟩ | ⟨k', es₁, es₂, m', rfl, rfl, edge, rest⟩
  · exact .inl ⟨.cut h, _, at_, hterm'⟩
  · obtain ⟨rfl, rfl⟩ := (steps_straight hterm hterm').mp edge
    exact .inr ⟨k', _, es₂, o, _, by omega, rfl, hr, ho, ht, rest⟩

/-- A block followed by the rest of its sequence: `inner` decomposes the part inside, and the rules put a
    prefix in front (nothing for a nested block, the test for a branch). -/
theorem decomposed_block {h a n : Hir} {m next k k₀ b : Nat} {break_ continue_ : Option Nat}
    (es₀ : List CfgEvent) {es : List CfgEvent} (hk₀ : k ≤ k₀)
    (inner : Decomposed blocks a m break_ continue_ k es b)
    (through : ∀ {es es' o}, Runs a es .normal → Runs n es' o → Runs h (es₀ ++ (es ++ es')) o)
    (out : ∀ {es o}, Runs a es o → o ≠ .normal → Runs h (es₀ ++ es) o)
    (hn : ∀ k' es', k' ≤ k → Path blocks k' m es' b → Decomposed blocks n next break_ continue_ k' es' b) :
    Decomposed blocks h next break_ continue_ k₀ (es₀ ++ es) b := by
  rcases inner with ⟨hr, hi⟩ | ⟨k', es₁, es₂, o, t, hk, rfl, hr, ho, ht, hp⟩
  · exact .inl ⟨out hr (by decide), hi⟩
  · by_cases hnormal : o = .normal
    · subst hnormal
      rw [show t = m from ht] at hp
      rcases hn k' es₂ hk hp with ⟨hr', hi⟩ | ⟨k'', es₃, es₄, o', t', hk', rfl, hr', ho', ht', hp'⟩
      · exact .inl ⟨through hr hr', hi⟩
      · refine .inr ⟨k'', _, es₄, o', t', by omega, ?_, through hr hr', ho', ht', hp'⟩
        simp only [List.append_assoc]
    · refine .inr ⟨k', _, es₂, o, t, by omega, (List.append_assoc ..).symm, out hr hnormal, ho, ?_, hp⟩
      cases o <;> first | exact ht | exact absurd rfl hnormal

/-- A loop: `shorter` decomposes every shorter path, so in particular what follows the test. -/
theorem decomposed_loop {i : Nat} {c body n : Hir} {e m entry next k b : Nat} {break_ continue_ : Option Nat}
    {es : List CfgEvent} (hn : Built blocks n m next break_ continue_)
    (at_ : blocks[e]? = some (branching c.head (some entry) m))
    (hbody : Built blocks body entry e (some m) (some e)) (hp : Path blocks k e es b)
    (shorter : ∀ k' < k, ∀ (h : Hir) {e next b : Nat} {break_ continue_ : Option Nat} {es : List CfgEvent},
      Built blocks h e next break_ continue_ → Path blocks k' e es b →
        Decomposed blocks h next break_ continue_ k' es b) :
    Decomposed blocks (.two i .whileNode c body n) next break_ continue_ k es b := by
  have loop : Built blocks (.two i .whileNode c body n) e next break_ continue_ :=
    ⟨m, hn, entry, at_, hbody⟩
  rcases hp.uncons at_ with ⟨rfl, rfl, rfl⟩ | ⟨k', es₁, es₂, m', rfl, rfl, edge, rest⟩
  · exact .inl ⟨.cut _, _, at_, VntCfgTerminator.noConfusion⟩
  · obtain ⟨outcome, test, rfl⟩ := steps_branching.mp edge
    cases outcome with
    | false =>
        rcases shorter k' (by omega) n hn rest with
          ⟨hr, hi⟩ | ⟨k'', es₃, es₄, o, t, hk, rfl, hr, ho, ht, hp'⟩
        · exact .inl ⟨.done test hr, hi⟩
        · exact .inr ⟨k'', _, es₄, o, t, by omega, (List.append_assoc ..).symm, .done test hr, ho, ht, hp'⟩
    | true =>
        -- One round: the body, and then whatever its outcome asks for.
        rcases shorter k' (by omega) body hbody rest with
          ⟨hr, hi⟩ | ⟨k₁, es₃, es₄, o, t, hk, rfl, hr, ho, ht, hp'⟩
        · exact .inl ⟨.loopOut test hr (.inr rfl), hi⟩
        · have goOn : ∀ {h : Hir} {e' : Nat}, Built blocks h e' next break_ continue_ → t = e' →
              (∀ {es' o'}, Runs h es' o' →
                Runs (.two i .whileNode c body n) (es₁ ++ (es₃ ++ es')) o') →
              Decomposed blocks (.two i .whileNode c body n) next break_ continue_ (k' + 1)
                (es₁ ++ (es₃ ++ es₄)) b := by
            rintro h e' hh rfl rule
            rcases shorter k₁ (by omega) h hh hp' with
              ⟨hr', hi⟩ | ⟨k₂, es₅, es₆, o', t', hk', rfl, hr', ho', ht', hp''⟩
            · exact .inl ⟨rule hr', hi⟩
            · refine .inr ⟨k₂, _, es₆, o', t', by omega, ?_, rule hr', ho', ht', hp''⟩
              simp only [List.append_assoc]
          cases o with
          | normal => exact goOn loop ht fun hr' => .again test hr (.inl rfl) hr'
          | continued => exact goOn loop (Option.some.inj ht).symm fun hr' => .again test hr (.inr rfl) hr'
          | broke => exact goOn hn (Option.some.inj ht).symm fun hr' => .left test hr hr'
          | returned =>
              refine .inr ⟨k₁, _, es₄, .returned, t, by omega, ?_, .loopOut test hr (.inl rfl), ho, ht, hp'⟩
              rw [List.append_assoc]
          | cut => exact absurd rfl ho

/-- Every path through built blocks decomposes. The induction is on the number of edges for the rounds of a
    loop, and on the tree for everything else. -/
theorem Path.decompose : ∀ (k : Nat) (h : Hir) {e next b : Nat} {break_ continue_ : Option Nat}
    {es : List CfgEvent}, Built blocks h e next break_ continue_ → Path blocks k e es b →
      Decomposed blocks h next break_ continue_ k es b := by
  intro k
  induction k using Nat.strong_induction_on with
  | _ k shorter =>
  intro h
  -- What the inner induction gives for paths of this length, the outer gives for shorter ones.
  have upTo : ∀ {n : Hir}, (∀ {e next b : Nat} {break_ continue_ : Option Nat} {es : List CfgEvent},
        Built blocks n e next break_ continue_ → Path blocks k e es b →
          Decomposed blocks n next break_ continue_ k es b) →
      ∀ {e next b : Nat} {break_ continue_ : Option Nat}, Built blocks n e next break_ continue_ →
        ∀ k' es, k' ≤ k → Path blocks k' e es b → Decomposed blocks n next break_ continue_ k' es b := by
    intro n hn e next b break_ continue_ hm k' es hk hp
    rcases Nat.lt_or_eq_of_le hk with hlt | rfl
    · exact shorter k' hlt n hm hp
    · exact hn hm hp
  induction h with
  | nil =>
      intro e next b _ _ es hb hp
      cases hb
      exact .inr ⟨k, [], es, .normal, e, Nat.le_refl k, rfl, .nil, by decide, rfl, hp⟩
  | leaf i op n hn =>
      rintro e next b break_ continue_ es ⟨m, hm, hb⟩ hp
      cases op with
      | breakNode =>
          obtain ⟨t, ht, hb⟩ := hb
          exact decomposed_exit hb (by decide) (by decide) .break_ (by decide) ht hp
      | continueNode =>
          obtain ⟨t, ht, hb⟩ := hb
          exact decomposed_exit hb (by decide) (by decide) .continue_ (by decide) ht hp
      | struct name names =>
          cases hb
          rcases hn hm hp with ⟨hr, hi⟩ | ⟨k', es₁, es₂, o, t, hk, rfl, hr, ho, ht, hp'⟩
          · exact .inl ⟨.struct hr, hi⟩
          · exact .inr ⟨k', es₁, es₂, o, t, hk, rfl, .struct hr, ho, ht, hp'⟩
      | _ => exact decomposed_plain hb (.leaf rfl) hp (upTo hn hm)
  | one i op a n ha hn =>
      rintro e next b break_ continue_ es ⟨m, hm, hb⟩ hp
      cases op with
      | program =>
          refine decomposed_block [] (Nat.le_refl k) (ha hb hp) .program .programOut ?_
          exact upTo hn hm
      | returnNode => exact decomposed_exit hb (by decide) (by decide) .return_ (by decide) rfl hp
      | function name names =>
          cases hb
          rcases hn hm hp with ⟨hr, hi⟩ | ⟨k', es₁, es₂, o, t, hk, rfl, hr, ho, ht, hp'⟩
          · exact .inl ⟨.function hr, hi⟩
          · exact .inr ⟨k', es₁, es₂, o, t, hk, rfl, .function hr, ho, ht, hp'⟩
      | _ => exact decomposed_plain hb (.one rfl) hp (upTo hn hm)
  | two i op a b n _ _ hn =>
      rintro e next b' break_ continue_ es ⟨m, hm, hb⟩ hp
      cases op with
      | whileNode =>
          obtain ⟨entry, hb, hbody⟩ := hb
          exact decomposed_loop hm hb hbody hp shorter
      | _ => exact decomposed_plain hb (.two rfl) hp (upTo hn hm)
  | ifNode i c t e n _ ht he hn =>
      rintro e' next b break_ continue_ es ⟨m, yes, no, hm, hyes, hno, hb⟩ hp
      rcases hp.uncons hb with ⟨rfl, rfl, rfl⟩ | ⟨k', es₁, es₂, m', rfl, rfl, edge, rest⟩
      · exact .inl ⟨.cut _, _, hb, VntCfgTerminator.noConfusion⟩
      · obtain ⟨outcome, test, rfl⟩ := steps_branching.mp edge
        have inner := shorter k' (by omega) _ (built_arm outcome hyes hno) rest
        refine decomposed_block es₁ (Nat.le_succ k') inner (.arm test) (.armOut test) ?_
        intro k'' es' hk hp'
        exact upTo hn hm k'' es' (by omega) hp'

end Simulation

end Vnt
