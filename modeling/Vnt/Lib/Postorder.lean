import Vnt.Lib.Reach

/-!
# `Lib.Postorder` — a depth-first walk that does a node after its successors

The usual walk with three marks: a node is opened, its successors are visited in order, then something is done with
the node and it is closed. A closed node is passed over, an open one is a cycle, and the walk stops at the first thing
that goes wrong. `Walks` says what the walk does without its fuel, one rule for each case, and the facts about the
walk are inductions over it.
-/

namespace Vnt.Lib

open Relation

inductive Mark where
  | fresh
  | opened
  | closed
  deriving DecidableEq

/-- Why a walk stops early. -/
inductive Stop (α ε : Type) where
  | outOfFuel
  | missing
  | cycle (x : α)
  | failed (x : α) (e : ε)
  deriving DecidableEq

/-- The marks, and the nodes something was done with, the last of them first. -/
structure Walk (α : Type) where
  mark : α → Mark
  log : List α

section

variable {α ε : Type} [DecidableEq α]

def Walk.start : Walk α := ⟨fun _ => .fresh, []⟩

def Walk.set (w : Walk α) (x : α) (m : Mark) : Walk α := { w with mark := Function.update w.mark x m }

def Walk.push (w : Walk α) (x : α) : Walk α := { w with log := x :: w.log }

variable (next : α → List (Option α)) (act : α → Option ε)

/-- The nodes of a list, one after another; `none` is a node that is not there. -/
def walkAll (visit : α → Walk α → Option (Stop α ε) × Walk α) :
    List (Option α) → Walk α → Option (Stop α ε) × Walk α
  | [], w => (none, w)
  | none :: _, w => (some .missing, w)
  | some x :: rest, w =>
      match visit x w with
      | (none, w) => walkAll visit rest w
      | (some stop, w) => (some stop, w)

def walk : Nat → α → Walk α → Option (Stop α ε) × Walk α
  | 0, _, w => (some .outOfFuel, w)
  | fuel + 1, x, w =>
      match w.mark x with
      | .opened => (some (.cycle x), w)
      | .closed => (none, w)
      | .fresh =>
          match walkAll (walk fuel) (next x) (w.set x .opened) with
          | (some stop, w) => (some stop, w)
          | (none, w) =>
              match act x with
              | some e => (some (.failed x e), w.push x)
              | none => (none, (w.push x).set x .closed)

/-- What a walk over a list of nodes does. -/
inductive Walks : List (Option α) → Walk α → Option (Stop α ε) → Walk α → Prop
  | nil {w : Walk α} : Walks [] w none w
  | missing {rest : List (Option α)} {w : Walk α} : Walks (none :: rest) w (some .missing) w
  | cycle {x : α} {rest : List (Option α)} {w : Walk α} :
      w.mark x = .opened → Walks (some x :: rest) w (some (.cycle x)) w
  | passed {x : α} {rest : List (Option α)} {w w' : Walk α} {r : Option (Stop α ε)} :
      w.mark x = .closed → Walks rest w r w' → Walks (some x :: rest) w r w'
  | stopped {x : α} {rest : List (Option α)} {w w' : Walk α} {stop : Stop α ε} :
      w.mark x = .fresh → Walks (next x) (w.set x .opened) (some stop) w' →
        Walks (some x :: rest) w (some stop) w'
  | failed {x : α} {rest : List (Option α)} {w w' : Walk α} {e : ε} :
      w.mark x = .fresh → Walks (next x) (w.set x .opened) none w' → act x = some e →
        Walks (some x :: rest) w (some (.failed x e)) (w'.push x)
  | done {x : α} {rest : List (Option α)} {w w₁ w' : Walk α} {r : Option (Stop α ε)} :
      w.mark x = .fresh → Walks (next x) (w.set x .opened) none w₁ → act x = none →
        Walks rest ((w₁.push x).set x .closed) r w' → Walks (some x :: rest) w r w'

/-- `y` is a successor of `x`. -/
def Leads (x y : α) : Prop := some y ∈ next x

/-- A list, the last first, in which every node stands once and after its successors. -/
inductive Postorder : List α → Prop
  | nil : Postorder []
  | cons {x : α} {l : List α} : Postorder l → x ∉ l → (∀ o ∈ next x, ∃ y ∈ l, o = some y) → Postorder (x :: l)

variable {next act} {todo : List (Option α)} {w w' : Walk α} {r : Option (Stop α ε)} {l : List α} {x y : α}

/-! ## The walk and its rules -/

/-- A visit that follows the rules makes a list follow them. -/
theorem walkAll_walks {visit : α → Walk α → Option (Stop α ε) × Walk α}
    (hvisit : ∀ x w, (visit x w).1 ≠ some .outOfFuel → ∀ rest r w', (∀ w₁, visit x w = (none, w₁) →
      Walks next act rest w₁ r w') → (∀ stop w₁, visit x w = (some stop, w₁) → r = some stop ∧ w' = w₁) →
        Walks next act (some x :: rest) w r w') (todo : List (Option α)) : ∀ w,
    (walkAll visit todo w).1 ≠ some .outOfFuel →
      Walks next act todo w (walkAll visit todo w).1 (walkAll visit todo w).2 := by
  induction todo with
  | nil => exact fun w _ => .nil
  | cons o rest ih =>
      intro w hfuel
      cases o with
      | none => exact .missing
      | some x =>
          rw [walkAll] at hfuel ⊢
          cases hx : visit x w with
          | mk r₁ w₁ =>
              rw [hx] at hfuel
              cases r₁ with
              | none =>
                  apply hvisit x w (by rw [hx]; exact nofun)
                  · intro w₂ hw₂
                    rw [hx] at hw₂
                    cases hw₂
                    exact ih w₁ hfuel
                  · intro stop w₂ hw₂
                    rw [hx] at hw₂
                    cases hw₂
              | some stop =>
                  apply hvisit x w (by rw [hx]; exact hfuel)
                  · intro w₂ hw₂
                    rw [hx] at hw₂
                    cases hw₂
                  · intro stop' w₂ hw₂
                    rw [hx] at hw₂
                    cases hw₂
                    exact ⟨rfl, rfl⟩

/-- One visit, with whatever follows it. -/
theorem walk_rule (fuel : Nat) : ∀ x w, (walk next act fuel x w).1 ≠ some .outOfFuel → ∀ rest r w',
    (∀ w₁, walk next act fuel x w = (none, w₁) → Walks next act rest w₁ r w') →
    (∀ stop w₁, walk next act fuel x w = (some stop, w₁) → r = some stop ∧ w' = w₁) →
      Walks next act (some x :: rest) w r w' := by
  induction fuel with
  | zero =>
      intro x w hfuel
      exact absurd rfl hfuel
  | succ fuel ih =>
      intro x w hfuel rest r w' hgo hstop
      rw [walk] at hfuel
      simp only [walk] at hgo hstop
      cases hmark : w.mark x with
      | opened =>
          rw [hmark] at hstop
          obtain ⟨rfl, rfl⟩ := hstop _ _ rfl
          exact .cycle hmark
      | closed =>
          rw [hmark] at hgo
          exact .passed hmark (hgo _ rfl)
      | fresh =>
          rw [hmark] at hfuel hgo hstop
          simp only at hfuel hgo hstop
          have hall := walkAll_walks ih (next x) (w.set x .opened)
          cases hnext : walkAll (walk next act fuel) (next x) (w.set x .opened) with
          | mk r₁ w₁ =>
              rw [hnext] at hfuel hgo hstop hall
              cases r₁ with
              | some stop =>
                  obtain ⟨rfl, rfl⟩ := hstop _ _ rfl
                  exact .stopped hmark (hall hfuel)
              | none =>
                  cases hact : act x with
                  | some e =>
                      rw [hact] at hstop
                      obtain ⟨rfl, rfl⟩ := hstop _ _ rfl
                      exact .failed hmark (hall nofun) hact
                  | none =>
                      rw [hact] at hgo
                      exact .done hmark (hall nofun) hact (hgo _ rfl)

theorem walkAll_walk {fuel : Nat} (hfuel : (walkAll (walk next act fuel) todo w).1 ≠ some .outOfFuel) :
    Walks next act todo w (walkAll (walk next act fuel) todo w).1 (walkAll (walk next act fuel) todo w).2 :=
  walkAll_walks (walk_rule fuel) todo w hfuel

/-- **What a walk does**, as long as it does not run out of fuel. -/
theorem walk_walks {fuel : Nat} (hfuel : (walk next act fuel x w).1 ≠ some .outOfFuel) :
    Walks next act [some x] w (walk next act fuel x w).1 (walk next act fuel x w).2 := by
  apply walk_rule fuel x w hfuel
  · intro w₁ hw₁
    rw [hw₁]
    exact .nil
  · intro stop w₁ hw₁
    rw [hw₁]
    exact ⟨rfl, rfl⟩

/-! ## Marks and log -/

/-- The marks say what the log says. -/
structure Walk.Sound (next : α → List (Option α)) (w : Walk α) : Prop where
  order : Postorder next w.log
  closed : ∀ y, w.mark y = .closed ↔ y ∈ w.log

omit [DecidableEq α] in
theorem Walk.start_sound : (Walk.start : Walk α).Sound next where
  order := .nil
  closed _ := ⟨nofun, nofun⟩

theorem Walk.set_mark {m : Mark} : (w.set x m).mark y = if y = x then m else w.mark y := by
  rw [Walk.set]
  by_cases h : y = x
  · rw [if_pos h, h]
    exact Function.update_self x m w.mark
  · rw [if_neg h]
    exact Function.update_of_ne h m w.mark

/-- To open a fresh node changes nothing in the log. -/
theorem Walk.Sound.opened (h : w.Sound next) (hx : w.mark x = .fresh) : (w.set x .opened).Sound next where
  order := h.order
  closed := by
    intro y
    rw [Walk.set_mark]
    by_cases hy : y = x
    · rw [if_pos hy, hy]
      refine ⟨nofun, fun hmem => ?_⟩
      have hclosed := (h.closed x).mpr hmem
      rw [hx] at hclosed
      cases hclosed
    · rw [if_neg hy]
      exact h.closed y

/-- A node that is closed after its successors. -/
theorem Walk.Sound.finished (h : w.Sound next) (hx : w.mark x = .opened)
    (hnext : ∀ o ∈ next x, ∃ y ∈ w.log, o = some y) : ((w.push x).set x .closed).Sound next where
  order := by
    refine .cons h.order (fun hmem => ?_) hnext
    have hclosed := (h.closed x).mpr hmem
    rw [hx] at hclosed
    cases hclosed
  closed := by
    intro y
    rw [Walk.set_mark]
    show _ ↔ y ∈ x :: w.log
    by_cases hy : y = x
    · rw [if_pos hy, hy]
      exact ⟨fun _ => List.mem_cons_self, fun _ => rfl⟩
    · rw [if_neg hy, List.mem_cons]
      show w.mark y = _ ↔ _
      rw [h.closed]
      exact ⟨.inr, fun hmem => hmem.resolve_left hy⟩

namespace Walks

/-- The log only grows, and by nodes the list leads to. -/
theorem log (h : Walks next act todo w r w') : ∃ new, w'.log = new ++ w.log ∧
    ∀ y ∈ new, ∃ x, some x ∈ todo ∧ ReflTransGen (Leads next) x y := by
  -- what is new below `x` is reached from `x`
  have below : ∀ {x : α} {rest new : List _}, (∀ y ∈ new, ∃ z, some z ∈ next x ∧ ReflTransGen (Leads next) z y) →
      ∀ y ∈ new, ∃ z, some z ∈ some x :: rest ∧ ReflTransGen (Leads next) z y := by
    intro x rest new hnew y hy
    obtain ⟨z, hz, hr⟩ := hnew y hy
    exact ⟨x, List.mem_cons_self, .head hz hr⟩
  induction h with
  | nil => exact ⟨[], rfl, nofun⟩
  | missing => exact ⟨[], rfl, nofun⟩
  | cycle _ => exact ⟨[], rfl, nofun⟩
  | passed _ _ ih =>
      obtain ⟨new, hlog, hnew⟩ := ih
      refine ⟨new, hlog, fun y hy => ?_⟩
      obtain ⟨z, hz, hr⟩ := hnew y hy
      exact ⟨z, List.mem_cons_of_mem _ hz, hr⟩
  | stopped _ _ ih =>
      obtain ⟨new, hlog, hnew⟩ := ih
      exact ⟨new, hlog, below hnew⟩
  | @failed x rest w w' e _ _ _ ih =>
      obtain ⟨new, hlog, hnew⟩ := ih
      refine ⟨x :: new, congrArg (x :: ·) hlog, fun y hy => ?_⟩
      rcases List.mem_cons.mp hy with rfl | hy
      · exact ⟨y, List.mem_cons_self, .refl⟩
      · exact below hnew y hy
  | @done x rest w w₁ w' r _ _ _ _ ih₁ ih₂ =>
      obtain ⟨new₁, hlog₁, hnew₁⟩ := ih₁
      obtain ⟨new₂, hlog₂, hnew₂⟩ := ih₂
      refine ⟨new₂ ++ x :: new₁, ?_, fun y hy => ?_⟩
      · rw [hlog₂, List.append_assoc]
        exact congrArg (new₂ ++ x :: ·) hlog₁
      · rcases List.mem_append.mp hy with hy | hy
        · obtain ⟨z, hz, hr⟩ := hnew₂ y hy
          exact ⟨z, List.mem_cons_of_mem _ hz, hr⟩
        · rcases List.mem_cons.mp hy with rfl | hy
          · exact ⟨y, List.mem_cons_self, .refl⟩
          · exact below hnew₁ y hy

theorem log_subset (h : Walks next act todo w r w') : w.log ⊆ w'.log := by
  obtain ⟨new, hlog, -⟩ := h.log
  rw [hlog]
  exact List.subset_append_right new w.log

/-- A node that is open stays open. -/
theorem keeps_opened (h : Walks next act todo w r w') (hy : w.mark y = .opened) : w'.mark y = .opened := by
  have hopened : ∀ {x : α} {w : Walk α}, w.mark x = .fresh → w.mark y = .opened →
      y ≠ x ∧ (w.set x .opened).mark y = .opened := by
    intro x w hfresh hy
    have hne : y ≠ x := by
      rintro rfl
      rw [hy] at hfresh
      cases hfresh
    refine ⟨hne, ?_⟩
    rw [Walk.set_mark, if_neg hne]
    exact hy
  induction h with
  | nil => exact hy
  | missing => exact hy
  | cycle _ => exact hy
  | passed _ _ ih => exact ih hy
  | stopped hfresh _ ih => exact ih (hopened hfresh hy).2
  | failed hfresh _ _ ih => exact ih (hopened hfresh hy).2
  | done hfresh _ _ _ ih₁ ih₂ =>
      obtain ⟨hne, hy'⟩ := hopened hfresh hy
      apply ih₂
      rw [Walk.set_mark, if_neg hne]
      exact ih₁ hy'

/-- After a walk that is not stopped no other node is open than before. -/
theorem opened_before (h : Walks next act todo w r w') (hr : r = none) (hy : w'.mark y = .opened) :
    w.mark y = .opened := by
  induction h with
  | nil => exact hy
  | missing => cases hr
  | cycle _ => cases hr
  | passed _ _ ih => exact ih hr hy
  | stopped _ _ _ => cases hr
  | failed _ _ _ _ => cases hr
  | @done x rest w w₁ w' r _ _ _ _ ih₁ ih₂ =>
      have hset := ih₂ hr hy
      rw [Walk.set_mark] at hset
      by_cases hyx : y = x
      · rw [if_pos hyx] at hset
        cases hset
      · rw [if_neg hyx] at hset
        have hfirst := ih₁ rfl hset
        rw [Walk.set_mark, if_neg hyx] at hfirst
        exact hfirst

/-- **The log is a postorder**, and after a walk that is not stopped all of the list is in it. -/
theorem sound (h : Walks next act todo w r w') (hw : w.Sound next) : Postorder next w'.log ∧
    (r = none → w'.Sound next ∧ ∀ o ∈ todo, ∃ y ∈ w'.log, o = some y) := by
  induction h with
  | nil => exact ⟨hw.order, fun _ => ⟨hw, nofun⟩⟩
  | missing => exact ⟨hw.order, nofun⟩
  | cycle _ => exact ⟨hw.order, nofun⟩
  | @passed x rest w w' r hclosed hrest ih =>
      obtain ⟨horder, hdone⟩ := ih hw
      refine ⟨horder, fun hr => ⟨(hdone hr).1, fun o ho => ?_⟩⟩
      rcases List.mem_cons.mp ho with rfl | ho
      · exact ⟨x, hrest.log_subset ((hw.closed x).mp hclosed), rfl⟩
      · exact (hdone hr).2 o ho
  | stopped hfresh _ ih => exact ⟨(ih (hw.opened hfresh)).1, nofun⟩
  | @failed x rest w w' e hfresh hnext _ ih =>
      obtain ⟨horder, hdone⟩ := ih (hw.opened hfresh)
      have hopened := hnext.keeps_opened (y := x) (by rw [Walk.set_mark, if_pos rfl])
      exact ⟨((hdone rfl).1.finished hopened (hdone rfl).2).order, nofun⟩
  | @done x rest w w₁ w' r hfresh hnext _ hrest ih₁ ih₂ =>
      obtain ⟨-, hdone⟩ := ih₁ (hw.opened hfresh)
      have hopened := hnext.keeps_opened (y := x) (by rw [Walk.set_mark, if_pos rfl])
      obtain ⟨horder, hdone'⟩ := ih₂ ((hdone rfl).1.finished hopened (hdone rfl).2)
      refine ⟨horder, fun hr => ⟨(hdone' hr).1, fun o ho => ?_⟩⟩
      rcases List.mem_cons.mp ho with rfl | ho
      · exact ⟨x, hrest.log_subset List.mem_cons_self, rfl⟩
      · exact (hdone' hr).2 o ho

/-- What was done succeeded, but for the node that stopped the walk, which is the last of the log. -/
theorem succeeded (h : Walks next act todo w r w') :
    (∀ x e, r = some (.failed x e) → act x = some e ∧ ∃ l, w'.log = x :: l ∧ w.log ⊆ l ∧
      ∀ y ∈ l, y ∈ w.log ∨ act y = none) ∧
    ((∀ x e, r ≠ some (.failed x e)) → ∀ y ∈ w'.log, y ∈ w.log ∨ act y = none) := by
  induction h with
  | nil => exact ⟨nofun, fun _ y hy => .inl hy⟩
  | missing => exact ⟨nofun, fun _ y hy => .inl hy⟩
  | cycle _ => exact ⟨nofun, fun _ y hy => .inl hy⟩
  | passed _ _ ih => exact ih
  | stopped _ _ ih => exact ih
  | @failed x rest w w' e _ hnext hact ih =>
      refine ⟨fun z e' hr => ?_, fun hno => absurd rfl (hno x e)⟩
      cases hr
      exact ⟨hact, w'.log, rfl, hnext.log_subset, ih.2 nofun⟩
  | @done x rest w w₁ w' r _ hnext hact hrest ih₁ ih₂ =>
      have hsub : w.log ⊆ x :: w₁.log := fun y hy => List.mem_cons_of_mem _ (hnext.log_subset hy)
      have hback : ∀ y, y ∈ x :: w₁.log ∨ act y = none → y ∈ w.log ∨ act y = none := by
        rintro y (hy | hy)
        · rcases List.mem_cons.mp hy with rfl | hy
          · exact .inr hact
          · exact ih₁.2 nofun y hy
        · exact .inr hy
      refine ⟨fun z e hr => ?_, fun hno y hy => hback y (ih₂.2 hno y hy)⟩
      obtain ⟨hz, l, hlog, hl, hall⟩ := ih₂.1 z e hr
      exact ⟨hz, l, hlog, fun y hy => hl (hsub hy), fun y hy => hback y (hall y hy)⟩

/-- A walk that meets an open node has found a cycle, if every open node leads to where the walk begins. -/
theorem cyclic (h : Walks next act todo w r w') (hr : r = some (.cycle x))
    (hopen : ∀ y z, w.mark y = .opened → some z ∈ todo → TransGen (Leads next) y z) :
    TransGen (Leads next) x x := by
  have hbelow : ∀ {x : α} {rest : List (Option α)} {w : Walk α}, w.mark x = .fresh →
      (∀ y z, w.mark y = .opened → some z ∈ some x :: rest → TransGen (Leads next) y z) →
      ∀ y z, (w.set x .opened).mark y = .opened → some z ∈ next x → TransGen (Leads next) y z := by
    intro x rest w _ hopen y z hy hz
    rw [Walk.set_mark] at hy
    by_cases hyx : y = x
    · rw [hyx]
      exact .single hz
    · rw [if_neg hyx] at hy
      exact .tail (hopen y x hy List.mem_cons_self) hz
  induction h with
  | nil => cases hr
  | missing => cases hr
  | cycle hmark =>
      cases hr
      exact hopen _ _ hmark List.mem_cons_self
  | passed _ _ ih => exact ih hr fun y z hy hz => hopen y z hy (List.mem_cons_of_mem _ hz)
  | stopped hfresh _ ih => exact ih hr (hbelow hfresh hopen)
  | failed _ _ _ _ => cases hr
  | @done z rest w w₁ w' r hfresh hnext _ _ ih₁ ih₂ =>
      refine ih₂ hr fun y z' hy hz' => hopen y z' ?_ (List.mem_cons_of_mem _ hz')
      rw [Walk.set_mark] at hy
      by_cases hyz : y = z
      · rw [if_pos hyz] at hy
        cases hy
      · rw [if_neg hyz] at hy
        have hset := hnext.opened_before rfl hy
        rw [Walk.set_mark, if_neg hyz] at hset
        exact hset

/-- Where every successor is there, the walk never finds one missing. -/
theorem not_missing (h : Walks next act todo w r w') (hnext : ∀ x, none ∉ next x) (htodo : none ∉ todo) :
    r ≠ some .missing := by
  induction h with
  | nil => exact nofun
  | missing => exact absurd List.mem_cons_self htodo
  | cycle _ => exact nofun
  | passed _ _ ih => exact ih fun hmem => htodo (List.mem_cons_of_mem _ hmem)
  | stopped _ _ ih => exact ih (hnext _)
  | failed _ _ _ _ => exact nofun
  | done _ _ _ _ _ ih => exact ih fun hmem => htodo (List.mem_cons_of_mem _ hmem)

/-- A marked node stays marked. -/
theorem keeps_marked (h : Walks next act todo w r w') (hy : w.mark y ≠ .fresh) : w'.mark y ≠ .fresh := by
  have hset : ∀ {x : α} {w : Walk α} {m : Mark}, m ≠ .fresh → w.mark y ≠ .fresh → (w.set x m).mark y ≠ .fresh := by
    intro x w m hm hy
    rw [Walk.set_mark]
    by_cases hyx : y = x
    · rw [if_pos hyx]
      exact hm
    · rw [if_neg hyx]
      exact hy
  induction h with
  | nil => exact hy
  | missing => exact hy
  | cycle _ => exact hy
  | passed _ _ ih => exact ih hy
  | stopped _ _ ih => exact ih (hset nofun hy)
  | failed _ _ _ ih => exact ih (hset nofun hy)
  | @done x _ _ w₁ _ _ _ _ _ _ ih₁ ih₂ =>
      apply ih₂
      exact hset (w := w₁.push x) nofun (ih₁ (hset nofun hy))

end Walks

/-! ## Enough fuel -/

/-- The nodes of a list that are fresh. -/
def Walk.freshIn (nodes : List α) (w : Walk α) : Nat := nodes.countP fun y => w.mark y = .fresh

omit [DecidableEq α] in
theorem freshIn_le (nodes : List α) (h : ∀ y, w.mark y ≠ .fresh → w'.mark y ≠ .fresh) :
    w'.freshIn nodes ≤ w.freshIn nodes := by
  refine List.countP_mono_left fun y _ hy => ?_
  by_contra hfresh
  exact h y (by simpa using hfresh) (by simpa using hy)

theorem freshIn_set {nodes : List α} (hx : x ∈ nodes) (hfresh : w.mark x = .fresh) :
    (w.set x .opened).freshIn nodes < w.freshIn nodes := by
  induction nodes with
  | nil => cases hx
  | cons y nodes ih =>
      unfold Walk.freshIn at *
      rw [List.countP_cons, List.countP_cons, Walk.set_mark]
      have hle : (nodes.countP fun z => (w.set x .opened).mark z = .fresh) ≤
          nodes.countP fun z => w.mark z = .fresh := by
        refine freshIn_le nodes fun z hz => ?_
        rw [Walk.set_mark]
        by_cases hzx : z = x
        · rw [if_pos hzx]
          exact nofun
        · rw [if_neg hzx]
          exact hz
      by_cases hyx : y = x
      · rw [if_pos hyx, hyx, hfresh]
        simp only [decide_true, if_true, reduceCtorEq, decide_false, Bool.false_eq_true, if_false]
        omega
      · rw [if_neg hyx]
        have hlt := ih ((List.mem_cons.mp hx).resolve_left fun he => hyx he.symm)
        omega

/-- **Fuel for the fresh nodes is enough.** -/
theorem walk_fuel {nodes : List α} (hnodes : ∀ x ∈ nodes, ∀ y, some y ∈ next x → y ∈ nodes) (fuel : Nat) :
    ∀ x ∈ nodes, ∀ w : Walk α, w.freshIn nodes < fuel → (walk next act fuel x w).1 ≠ some .outOfFuel := by
  induction fuel with
  | zero => exact fun x _ w hw => absurd hw (Nat.not_lt_zero _)
  | succ fuel ih =>
      intro x hx w hw
      have hall : ∀ todo : List (Option α), (∀ y, some y ∈ todo → y ∈ nodes) → ∀ w : Walk α,
          w.freshIn nodes < fuel → (walkAll (walk next act fuel) todo w).1 ≠ some .outOfFuel := by
        intro todo
        induction todo with
        | nil => exact fun _ _ _ => nofun
        | cons o rest ihrest =>
            intro htodo w hw
            cases o with
            | none => exact nofun
            | some y =>
                have hy := ih y (htodo y List.mem_cons_self) w hw
                have hwalks := walk_walks hy
                rw [walkAll]
                cases hvisit : walk next act fuel y w with
                | mk r₁ w₁ =>
                    rw [hvisit] at hy hwalks
                    cases r₁ with
                    | some stop => exact hy
                    | none =>
                        refine ihrest (fun z hz => htodo z (List.mem_cons_of_mem _ hz)) w₁ ?_
                        exact Nat.lt_of_le_of_lt (freshIn_le nodes fun z hz => hwalks.keeps_marked hz) hw
      rw [walk]
      cases hmark : w.mark x with
      | opened => exact nofun
      | closed => exact nofun
      | fresh =>
          have hless := freshIn_set hx hmark
          have hnext := hall (next x) (hnodes x hx) (w.set x .opened) (by omega)
          simp only
          cases hrun : walkAll (walk next act fuel) (next x) (w.set x .opened) with
          | mk r₁ w₁ =>
              rw [hrun] at hnext
              cases r₁ with
              | some stop => exact hnext
              | none =>
                  cases hact : act x with
                  | none => exact nofun
                  | some e => exact nofun

/-! ## Postorders -/

namespace Postorder

omit [DecidableEq α] in
theorem nodup (h : Postorder next l) : l.Nodup := by
  induction h with
  | nil => exact List.nodup_nil
  | cons _ hx _ ih => exact List.nodup_cons.mpr ⟨hx, ih⟩

omit [DecidableEq α] in
/-- What a node leads to stands earlier. -/
theorem after {before later : List α} (h : Postorder next l) (hl : l = later ++ x :: before) (hxy : Leads next x y) :
    y ∈ before := by
  induction h generalizing later with
  | nil => simp at hl
  | @cons z l _ _ hnext ih =>
      cases later with
      | nil =>
          cases hl
          obtain ⟨y', hy', heq⟩ := hnext _ hxy
          cases heq
          exact hy'
      | cons z' later =>
          cases hl
          exact ih rfl

omit [DecidableEq α] in
/-- No node of a postorder is on a cycle, or leads to one. -/
theorem acc (h : Postorder next l) : ∀ x ∈ l, Acc (fun y x => Leads next x y) x := by
  induction h with
  | nil => exact nofun
  | @cons z l _ _ hnext ih =>
      intro x hx
      rcases List.mem_cons.mp hx with rfl | hx
      · refine .intro x fun y hxy => ?_
        obtain ⟨y', hy', heq⟩ := hnext _ hxy
        cases heq
        exact ih y hy'
      · exact ih x hx

end Postorder

end

end Vnt.Lib
