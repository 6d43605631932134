import Vnt.Lib.Postorder

/-!
# `Lib.Search` — a depth-first search that stops at what it looks for

A node is marked when it is visited, and the search comes back as soon as it has found a node with the property. It
finds one exactly when one can be reached (`search_iff`).
-/

namespace Vnt.Lib

open Relation

variable {α : Type} [DecidableEq α]

/-- The nodes of a list, one after another, until something is found; a node that is not there is passed over. -/
def searchAll (visit : α → List α → Bool × List α) : List (Option α) → List α → Bool × List α
  | [], visited => (false, visited)
  | none :: rest, visited => searchAll visit rest visited
  | some x :: rest, visited =>
      match visit x visited with
      | (true, visited) => (true, visited)
      | (false, visited) => searchAll visit rest visited

def search (next : α → List (Option α)) (found : α → Bool) : Nat → α → List α → Bool × List α
  | 0, _, visited => (false, visited)
  | fuel + 1, x, visited =>
      if x ∈ visited then (false, visited)
      else if found x = true then (true, x :: visited)
      else searchAll (search next found fuel) (next x) (x :: visited)

variable {next : α → List (Option α)} {found : α → Bool} {nodes visited : List α} {x : α}

/-- What is found can be reached. -/
theorem search_sound (fuel : Nat) : ∀ x visited, (search next found fuel x visited).1 = true →
    ∃ y, ReflTransGen (Leads next) x y ∧ found y = true := by
  induction fuel with
  | zero => exact nofun
  | succ fuel ih =>
      intro x visited h
      have hall : ∀ todo visited, (searchAll (search next found fuel) todo visited).1 = true →
          ∃ z, some z ∈ todo ∧ ∃ y, ReflTransGen (Leads next) z y ∧ found y = true := by
        intro todo
        induction todo with
        | nil => exact nofun
        | cons o rest ihrest =>
            intro visited h
            have later : ∀ visited, (searchAll (search next found fuel) rest visited).1 = true →
                ∃ z, some z ∈ o :: rest ∧ ∃ y, ReflTransGen (Leads next) z y ∧ found y = true := by
              intro visited h
              obtain ⟨z, hz, hfound⟩ := ihrest visited h
              exact ⟨z, List.mem_cons_of_mem o hz, hfound⟩
            cases o with
            | none => exact later visited h
            | some z =>
                rw [searchAll] at h
                cases hz : search next found fuel z visited with
                | mk b visited' =>
                    rw [hz] at h
                    cases b with
                    | true => exact ⟨z, List.mem_cons_self, ih z visited (by rw [hz])⟩
                    | false => exact later visited' h
      rw [search] at h
      by_cases hmem : x ∈ visited
      · rw [if_pos hmem] at h
        cases h
      · rw [if_neg hmem] at h
        by_cases hx : found x = true
        · exact ⟨x, .refl, hx⟩
        · rw [if_neg hx] at h
          obtain ⟨z, hz, y, hzy, hy⟩ := hall _ _ h
          exact ⟨y, .head hz hzy, hy⟩

/-- The nodes of a list that have not been visited. -/
def unvisited (nodes visited : List α) : Nat := nodes.countP fun y => y ∉ visited

theorem unvisited_le (nodes : List α) {visited' : List α} (h : visited ⊆ visited') : unvisited nodes visited' ≤ unvisited nodes visited := by
  refine List.countP_mono_left fun y _ hy => ?_
  simp only [decide_eq_true_eq] at hy ⊢
  exact fun hmem => hy (h hmem)

theorem unvisited_cons (hx : x ∈ nodes) (hfresh : x ∉ visited) :
    unvisited nodes (x :: visited) < unvisited nodes visited := by
  induction nodes with
  | nil => cases hx
  | cons y nodes ih =>
      unfold unvisited at *
      rw [List.countP_cons, List.countP_cons]
      have hle : (nodes.countP fun z => z ∉ x :: visited) ≤ nodes.countP fun z => z ∉ visited :=
        unvisited_le nodes (List.subset_cons_self x visited)
      by_cases hyx : y = x
      · rw [hyx, if_neg (by simp), if_pos (by simpa using hfresh)]
        omega
      · have hlt := ih ((List.mem_cons.mp hx).resolve_left fun he => hyx he.symm)
        have hsame : (decide (y ∉ x :: visited) = true) ↔ (decide (y ∉ visited) = true) := by simp [hyx]
        simp only [hsame]
        omega

/-- What a search that finds nothing leaves: it has visited `todo`, and behind every node it has visited there is
    nothing it has not. -/
structure Exhausted (next : α → List (Option α)) (found : α → Bool) (todo : List (Option α)) (visited visited' : List α) :
    Prop where
  grows : visited ⊆ visited'
  seen : ∀ x, some x ∈ todo → x ∈ visited'
  closed : ∀ y ∈ visited', y ∈ visited ∨ found y = false ∧ ∀ z, Leads next y z → z ∈ visited'

/-- With fuel for the nodes that are not visited, a search that finds nothing has seen everything. -/
theorem search_exhausted (hnodes : ∀ x ∈ nodes, ∀ y, Leads next x y → y ∈ nodes) (fuel : Nat) :
    ∀ x ∈ nodes, ∀ visited, unvisited nodes visited < fuel → (search next found fuel x visited).1 = false →
      Exhausted next found [some x] visited (search next found fuel x visited).2 := by
  induction fuel with
  | zero => exact fun x _ visited h => absurd h (Nat.not_lt_zero _)
  | succ fuel ih =>
      intro x hx visited hfuel h
      have hall : ∀ todo, (∀ y, some y ∈ todo → y ∈ nodes) → ∀ visited, unvisited nodes visited < fuel →
          (searchAll (search next found fuel) todo visited).1 = false →
            Exhausted next found todo visited (searchAll (search next found fuel) todo visited).2 := by
        intro todo
        induction todo with
        | nil => exact fun _ visited _ _ => ⟨List.Subset.refl _, nofun, fun y hy => .inl hy⟩
        | cons o rest ihrest =>
            intro htodo visited hfuel h
            have hrest : ∀ y, some y ∈ rest → y ∈ nodes := fun y hy => htodo y (List.mem_cons_of_mem o hy)
            cases o with
            | none =>
                obtain ⟨hgrows, hseen, hclosed⟩ := ihrest hrest visited hfuel h
                refine ⟨hgrows, fun z hz => ?_, hclosed⟩
                rcases List.mem_cons.mp hz with hz | hz
                · cases hz
                · exact hseen z hz
            | some y =>
                rw [searchAll] at h ⊢
                cases hy : search next found fuel y visited with
                | mk b visited₁ =>
                    rw [hy] at h
                    cases b with
                    | true => cases h
                    | false =>
                        have hone := ih y (htodo y List.mem_cons_self) visited hfuel (by rw [hy])
                        rw [hy] at hone
                        have hless := Nat.lt_of_le_of_lt (unvisited_le nodes hone.grows) hfuel
                        obtain ⟨hgrows, hseen, hclosed⟩ := ihrest hrest visited₁ hless h
                        refine ⟨fun z hz => hgrows (hone.grows hz), fun z hz => ?_, fun z hz => ?_⟩
                        · rcases List.mem_cons.mp hz with hz | hz
                          · cases hz
                            exact hgrows (hone.seen y List.mem_cons_self)
                          · exact hseen z hz
                        · rcases hclosed z hz with hz | hz
                          · rcases hone.closed z hz with hz | ⟨hnot, hnext⟩
                            · exact .inl hz
                            · exact .inr ⟨hnot, fun u hu => hgrows (hnext u hu)⟩
                          · exact .inr hz
      rw [search] at h ⊢
      by_cases hmem : x ∈ visited
      · rw [if_pos hmem]
        refine ⟨List.Subset.refl _, fun z hz => ?_, fun y hy => .inl hy⟩
        cases List.mem_singleton.mp hz
        exact hmem
      · rw [if_neg hmem] at h ⊢
        by_cases hfound : found x = true
        · rw [if_pos hfound] at h
          cases h
        · rw [if_neg hfound] at h ⊢
          have hless := unvisited_cons hx hmem
          obtain ⟨hgrows, hseen, hclosed⟩ := hall (next x) (hnodes x hx) (x :: visited) (by omega) h
          have hin := hgrows (List.mem_cons_self (a := x) (l := visited))
          refine ⟨fun z hz => hgrows (List.mem_cons_of_mem x hz), fun z hz => ?_, fun z hz => ?_⟩
          · cases List.mem_singleton.mp hz
            exact hin
          · rcases hclosed z hz with hz | hz
            · rcases List.mem_cons.mp hz with rfl | hz
              · exact .inr ⟨by simpa using hfound, fun u hu => hseen u hu⟩
              · exact .inl hz
            · exact .inr hz

/-- **The search finds what can be reached.** -/
theorem search_iff (hnodes : ∀ x ∈ nodes, ∀ y, Leads next x y → y ∈ nodes) (hx : x ∈ nodes) {fuel : Nat}
    (hfuel : nodes.length < fuel) :
    (search next found fuel x []).1 = true ↔ ∃ y, ReflTransGen (Leads next) x y ∧ found y = true := by
  refine ⟨search_sound fuel x [], fun ⟨y, hxy, hy⟩ => ?_⟩
  by_contra hno
  have hless : unvisited nodes [] < fuel := Nat.lt_of_le_of_lt List.countP_le_length hfuel
  obtain ⟨-, hseen, hclosed⟩ := search_exhausted hnodes fuel x hx [] hless (by simpa using hno)
  have hreach : ∀ y, ReflTransGen (Leads next) x y → y ∈ (search next found fuel x []).2 := by
    intro y hxy
    induction hxy with
    | refl => exact hseen x List.mem_cons_self
    | tail _ hlead ih =>
        rcases hclosed _ ih with hmem | ⟨-, hnext⟩
        · cases hmem
        · exact hnext _ hlead
  rcases hclosed y (hreach y hxy) with hmem | ⟨hnot, -⟩
  · cases hmem
  · rw [hy] at hnot
    cases hnot

end Vnt.Lib
