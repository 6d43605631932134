import Mathlib.Logic.Relation
import Mathlib.Data.List.Nodup

/-!
# `Lib.Collect` — a depth-first walk that collects what can be reached

The nodes a walk has come to are remembered in order, at most `cap` of them, and a node that is remembered is not
entered again. The walk fails at a node that cannot be entered, at an edge that leads nowhere and when it has too many
nodes. It returns exactly on a graph whose reachable part is in order and small enough (`collect_returns_iff`), and then
with that part (`mem_collect`).
-/

namespace Vnt.Lib

open Relation

variable {α : Type}

/-- The edges of a node, one after another; `none` is an edge that leads nowhere. -/
def collectAll (visit : α → List α → Option (List α)) : List (Option α) → List α → Option (List α)
  | [], seen => some seen
  | none :: _, _ => none
  | some x :: rest, seen => (visit x seen).bind (collectAll visit rest)

/-- `next` gives the edges of a node that can be entered. -/
def collect [DecidableEq α] (next : α → Option (List (Option α))) (cap : Nat) : Nat → α → List α → Option (List α)
  | 0, _, _ => none
  | fuel + 1, x, seen =>
      if x ∈ seen then some seen
      else if cap ≤ seen.length then none
      else (next x).bind fun todo => collectAll (collect next cap fuel) todo (seen ++ [x])

variable {next : α → Option (List (Option α))} {cap : Nat} {x y : α} {seen seen' nodes : List α}
  {todo : List (Option α)}

/-- An edge. -/
def Goes (next : α → Option (List (Option α))) (x y : α) : Prop := ∃ todo, next x = some todo ∧ some y ∈ todo

/-- The node can be entered, and its edges lead to nodes of the list. -/
def Settled (next : α → Option (List (Option α))) (nodes : List α) (x : α) : Prop :=
  ∃ todo, next x = some todo ∧ none ∉ todo ∧ ∀ y, some y ∈ todo → y ∈ nodes

theorem Settled.mono (h : Settled next seen x) (hsub : seen ⊆ seen') : Settled next seen' x := by
  obtain ⟨todo, hnext, hnone, hmem⟩ := h
  exact ⟨todo, hnext, hnone, fun y hy => hsub (hmem y hy)⟩

/-- What a walk over the edges `todo` does to the nodes it remembers. -/
structure Collects (next : α → Option (List (Option α))) (cap : Nat) (todo : List (Option α)) (seen seen' : List α) :
    Prop where
  grows : seen ⊆ seen'
  all : none ∉ todo
  has : ∀ x, some x ∈ todo → x ∈ seen'
  reached : ∀ y ∈ seen', y ∈ seen ∨ ∃ x, some x ∈ todo ∧ ReflTransGen (Goes next) x y
  settled : ∀ y ∈ seen', y ∈ seen ∨ Settled next seen' y
  nodup : seen.Nodup → seen'.Nodup
  short : seen.length ≤ cap → seen'.length ≤ cap

theorem Collects.nil : Collects next cap [] seen seen where
  grows := List.Subset.refl seen
  all := List.not_mem_nil
  has := nofun
  reached := fun _ => .inl
  settled := fun _ => .inl
  nodup := id
  short := id

theorem Collects.cons {seen₁ : List α} (h : Collects next cap [some x] seen seen₁)
    (hrest : Collects next cap todo seen₁ seen') : Collects next cap (some x :: todo) seen seen' where
  grows := fun y hy => hrest.grows (h.grows hy)
  all := by
    intro hnone
    rcases List.mem_cons.mp hnone with hx | htodo
    · cases hx
    · exact hrest.all htodo
  has := by
    intro y hy
    rcases List.mem_cons.mp hy with hx | htodo
    · exact hrest.grows (h.has y (List.mem_singleton.mpr hx))
    · exact hrest.has y htodo
  reached := by
    intro y hy
    rcases hrest.reached y hy with hy | ⟨z, hz, hzy⟩
    · rcases h.reached y hy with hy | ⟨z, hz, hzy⟩
      · exact .inl hy
      · exact .inr ⟨z, List.mem_cons.mpr (.inl (List.mem_singleton.mp hz)), hzy⟩
    · exact .inr ⟨z, List.mem_cons_of_mem _ hz, hzy⟩
  settled := by
    intro y hy
    rcases hrest.settled y hy with hy | hsettled
    · exact (h.settled y hy).imp_right fun hsettled => hsettled.mono hrest.grows
    · exact .inr hsettled
  nodup := fun hseen => hrest.nodup (h.nodup hseen)
  short := fun hseen => hrest.short (h.short hseen)

theorem collectAll_collects {visit : α → List α → Option (List α)}
    (hvisit : ∀ x seen seen', visit x seen = some seen' → Collects next cap [some x] seen seen') :
    ∀ {todo : List (Option α)} {seen seen' : List α}, collectAll visit todo seen = some seen' →
      Collects next cap todo seen seen' := by
  intro todo
  induction todo with
  | nil =>
      intro seen seen' h
      obtain rfl := Option.some.inj h
      exact .nil
  | cons edge rest ih =>
      intro seen seen' h
      cases edge with
      | none => cases h
      | some x =>
          obtain ⟨seen₁, hx, hrest⟩ := Option.bind_eq_some_iff.mp h
          exact (hvisit x seen seen₁ hx).cons (ih hrest)

variable [DecidableEq α]

/-- **A walk that returns has collected what it could reach.** -/
theorem collect_collects (fuel : Nat) : ∀ x seen seen', collect next cap fuel x seen = some seen' →
    Collects next cap [some x] seen seen' := by
  induction fuel with
  | zero => exact nofun
  | succ fuel ih =>
      intro x seen seen' h
      rw [collect] at h
      by_cases hmem : x ∈ seen
      · rw [if_pos hmem] at h
        obtain rfl := Option.some.inj h
        refine ⟨List.Subset.refl _, by simp, fun y hy => ?_, fun y hy => .inl hy, fun y hy => .inl hy, id, id⟩
        cases List.mem_singleton.mp hy
        exact hmem
      · rw [if_neg hmem] at h
        by_cases hfull : cap ≤ seen.length
        · rw [if_pos hfull] at h
          cases h
        · rw [if_neg hfull] at h
          obtain ⟨todo, hnext, hall⟩ := Option.bind_eq_some_iff.mp h
          obtain ⟨hgrows, hnone, hhas, hreached, hsettled, hnodup, hshort⟩ := collectAll_collects ih hall
          have hx : x ∈ seen' := hgrows (List.mem_append_right _ List.mem_cons_self)
          refine ⟨fun y hy => hgrows (List.mem_append_left _ hy), by simp, fun y hy => ?_, fun y hy => ?_,
            fun y hy => ?_, fun hseen => hnodup ?_, fun _ => hshort ?_⟩
          · cases List.mem_singleton.mp hy
            exact hx
          · rcases hreached y hy with hy | ⟨z, hz, hzy⟩
            · rcases List.mem_append.mp hy with hy | hy
              · exact .inl hy
              · exact .inr ⟨x, List.mem_singleton_self _, List.mem_singleton.mp hy ▸ .refl⟩
            · exact .inr ⟨x, List.mem_singleton_self _, .head ⟨todo, hnext, hz⟩ hzy⟩
          · rcases hsettled y hy with hy | hsettled
            · rcases List.mem_append.mp hy with hy | hy
              · exact .inl hy
              · obtain rfl := List.mem_singleton.mp hy
                exact .inr ⟨todo, hnext, hnone, hhas⟩
            · exact .inr hsettled
          · exact List.nodup_append.mpr ⟨hseen, List.nodup_singleton x, fun a ha b hb hab =>
              hmem (List.mem_singleton.mp hb ▸ hab ▸ ha)⟩
          · rw [List.length_append, List.length_singleton]
            omega

/-- The nodes a finished walk has collected are those that can be reached. -/
theorem mem_collect {fuel : Nat} (h : collect next cap fuel x [] = some seen') :
    y ∈ seen' ↔ ReflTransGen (Goes next) x y := by
  have hcollects := collect_collects fuel x [] seen' h
  constructor
  · intro hy
    rcases hcollects.reached y hy with hy | ⟨z, hz, hzy⟩
    · cases hy
    · cases List.mem_singleton.mp hz
      exact hzy
  · intro hxy
    induction hxy with
    | refl => exact hcollects.has x (List.mem_singleton_self _)
    | tail _ hstep ih =>
        obtain ⟨todo, hnext, hmem⟩ := hstep
        rcases hcollects.settled _ ih with hy | ⟨todo', hnext', -, hhas⟩
        · cases hy
        · rw [hnext] at hnext'
          cases hnext'
          exact hhas _ hmem

/-! ## When the walk returns -/

omit [DecidableEq α] in
theorem length_lt_of_fresh (hseen : seen.Nodup) (hsub : seen ⊆ nodes) (hx : x ∈ nodes) (hfresh : x ∉ seen) :
    seen.length < nodes.length := by
  have hnodup : (x :: seen).Nodup := List.nodup_cons.mpr ⟨hfresh, hseen⟩
  exact List.Nodup.length_le_of_subset hnodup (List.cons_subset.mpr ⟨hx, hsub⟩)

/-- On nodes that are in order the walk returns, with fuel for those it does not remember yet. -/
theorem collect_returns (hnodes : ∀ y ∈ nodes, Settled next nodes y) (hcap : nodes.length ≤ cap) (fuel : Nat) :
    ∀ x ∈ nodes, ∀ seen, seen ⊆ nodes → seen.Nodup → nodes.length < seen.length + fuel →
      ∃ seen', collect next cap fuel x seen = some seen' ∧ seen' ⊆ nodes := by
  induction fuel with
  | zero =>
      intro x hx seen hsub hseen hfuel
      have hle := List.Nodup.length_le_of_subset hseen hsub
      omega
  | succ fuel ih =>
      intro x hx seen hsub hseen hfuel
      have hall : ∀ todo, none ∉ todo → (∀ y, some y ∈ todo → y ∈ nodes) → ∀ seen, seen ⊆ nodes → seen.Nodup →
          nodes.length < seen.length + fuel →
            ∃ seen', collectAll (collect next cap fuel) todo seen = some seen' ∧ seen' ⊆ nodes := by
        intro todo
        induction todo with
        | nil => exact fun _ _ seen hsub _ _ => ⟨seen, rfl, hsub⟩
        | cons edge rest ihrest =>
            intro hnone htodo seen hsub hseen hfuel
            cases edge with
            | none => exact absurd List.mem_cons_self hnone
            | some y =>
                obtain ⟨seen₁, hrun, hsub₁⟩ := ih y (htodo y List.mem_cons_self) seen hsub hseen hfuel
                have hcollects := collect_collects fuel y seen seen₁ hrun
                have hlength := List.Nodup.length_le_of_subset hseen hcollects.grows
                rw [collectAll, hrun]
                exact ihrest (fun h => hnone (List.mem_cons_of_mem _ h)) (fun z hz => htodo z (List.mem_cons_of_mem _ hz))
                  seen₁ hsub₁ (hcollects.nodup hseen) (by omega)
      rw [collect]
      by_cases hmem : x ∈ seen
      · rw [if_pos hmem]
        exact ⟨seen, rfl, hsub⟩
      · have hroom := length_lt_of_fresh hseen hsub hx hmem
        obtain ⟨todo, hnext, hnone, hmemtodo⟩ := hnodes x hx
        rw [if_neg hmem, if_neg (by omega), hnext]
        apply hall todo hnone hmemtodo
        · exact List.append_subset.mpr ⟨hsub, List.cons_subset.mpr ⟨hx, List.nil_subset nodes⟩⟩
        · exact List.nodup_append.mpr ⟨hseen, List.nodup_singleton x, fun a ha b hb hab =>
            hmem (List.mem_singleton.mp hb ▸ hab ▸ ha)⟩
        · rw [List.length_append, List.length_singleton]
          omega

/-- **When the walk returns**: there are at most `cap` nodes, the first among them, that can be entered and whose edges
    stay among them. -/
theorem collect_returns_iff : (∃ seen, collect next cap (cap + 1) x [] = some seen) ↔
    ∃ nodes : List α, nodes.length ≤ cap ∧ x ∈ nodes ∧ ∀ y ∈ nodes, Settled next nodes y := by
  constructor
  · rintro ⟨seen, h⟩
    have hcollects := collect_collects (cap + 1) x [] seen h
    refine ⟨seen, hcollects.short (Nat.zero_le cap), hcollects.has x (List.mem_singleton_self _), fun y hy => ?_⟩
    exact (hcollects.settled y hy).resolve_left List.not_mem_nil
  · rintro ⟨nodes, hcap, hx, hnodes⟩
    obtain ⟨seen, hrun, -⟩ :=
      collect_returns hnodes hcap (cap + 1) x hx [] (List.nil_subset nodes) List.nodup_nil (by simp; omega)
    exact ⟨seen, hrun⟩

end Vnt.Lib
