import Mathlib.Order.WellFounded
import Vnt.Lib.Reach

/-!
# `Lib.DepthFirst` — depth-first unfolding of a graph of documents

A *document* is a list of items; an item is text or a link to another document, with a label the link gives it.
`Unfolds` says what it means to write out a document depth first: text is written where it stands, a link is
replaced by everything its target unfolds to, unless the target is already written. Nothing here looks at how
a program finds that order: the relation has no stack of open documents, so it has no derivation through a
cycle, and this is all that the acyclicity of an unfolded graph rests on (`Unfolds.acc`).

For a finished unfolding: its documents are the reachable ones (`Expands.mem_iff`), each text item occurs
exactly once (`Unfolds.mem_places`, `Unfolds.nodup_places`), and no item is written before one it has to follow
(`Unfolds.ordered`).
-/

namespace Vnt.Lib

open Relation

/-- A text item that has been written: its document, the label of that document, its position there. -/
structure Piece (N L : Type) where
  node : N
  label : L
  index : Nat
  deriving DecidableEq, Repr

/-- Where a piece stands in its document. -/
def Piece.place {N L : Type} (e : Piece N L) : N × Nat := (e.node, e.index)

section

variable {N I L : Type} (items : N → List I) (link : N → I → Option (N × L))

/-- `Unfolds done p a k rest out done'`: with the documents of `done` already written, the items `rest` of `p`,
    the first of them the `k`-th, unfold to `out`, after which the documents of `done'` are written. -/
inductive Unfolds : List N → N → L → Nat → List I → List (Piece N L) → List N → Prop
  | nil {done : List N} {p : N} {a : L} {k : Nat} : Unfolds done p a k [] [] done
  | text {done done' : List N} {p : N} {a : L} {k : Nat} {i : I} {rest : List I} {out : List (Piece N L)} :
      link p i = none → Unfolds done p a (k + 1) rest out done' →
      Unfolds done p a k (i :: rest) (⟨p, a, k⟩ :: out) done'
  | old {done done' : List N} {p q : N} {a b : L} {k : Nat} {i : I} {rest : List I} {out : List (Piece N L)} :
      link p i = some (q, b) → q ∈ done → Unfolds done p a (k + 1) rest out done' →
      Unfolds done p a k (i :: rest) out done'
  | fresh {done done₁ done₂ : List N} {p q : N} {a b : L} {k : Nat} {i : I} {rest : List I}
      {out₁ out₂ : List (Piece N L)} :
      link p i = some (q, b) → q ∉ done → Unfolds done q b 0 (items q) out₁ done₁ →
      Unfolds (q :: done₁) p a (k + 1) rest out₂ done₂ →
      Unfolds done p a k (i :: rest) (out₁ ++ out₂) done₂

/-- The whole of `root` unfolds to `out`; `done` are the documents written on the way. -/
def Expands (root : N) (a : L) (out : List (Piece N L)) (done : List N) : Prop :=
  Unfolds items link [] root a 0 (items root) out done

/-- The `k`-th item of `p` links to `q`. -/
def LinkAt (p : N) (k : Nat) (q : N) : Prop := ∃ i b, (items p)[k]? = some i ∧ link p i = some (q, b)

/-- Some item of `p` links to `q`. -/
def Links (p q : N) : Prop := ∃ k, LinkAt items link p k q

/-- The `k`-th item of `p` is text. -/
def TextAt (p : N) (k : Nat) : Prop := ∃ i, (items p)[k]? = some i ∧ link p i = none

/-- A set of documents with everything they link to. -/
def Closed (s : List N) : Prop := ∀ p ∈ s, ∀ q, Links items link p q → q ∈ s

/-- `y` has to be written before `x`: it stands earlier in the same document, or in one that a link standing
    earlier in the document of `x` leads to. -/
def Precedes (y x : Piece N L) : Prop :=
  (y.node = x.node ∧ y.index < x.index) ∨
    ∃ k m, k < x.index ∧ LinkAt items link x.node k m ∧ ReflTransGen (Links items link) m y.node

variable {items : N → List I} {link : N → I → Option (N × L)}

/-- What is left of a document from its `k`-th item on. -/
private theorem drop_cons_at {p : N} {k : Nat} {i : I} {rest : List I} (h : i :: rest = (items p).drop k) :
    (items p)[k]? = some i ∧ rest = (items p).drop (k + 1) := by
  constructor
  · have h0 : ((items p).drop k)[0]? = some i := by rw [← h]; rfl
    simpa using h0
  · rw [← List.tail_drop, ← h]
    rfl

theorem Closed.reach {s : List N} (hs : Closed items link s) {p q : N} (hp : p ∈ s)
    (hr : ReflTransGen (Links items link) p q) : q ∈ s := by
  induction hr with
  | refl => exact hp
  | tail _ hl ih => exact hs _ ih _ hl

namespace Unfolds

variable {done done' : List N} {p : N} {a : L} {k : Nat} {rest : List I} {out : List (Piece N L)}

theorem subset (h : Unfolds items link done p a k rest out done') : done ⊆ done' := by
  induction h with
  | nil => exact List.Subset.refl _
  | text _ _ ih => exact ih
  | old _ _ _ ih => exact ih
  | fresh _ _ _ _ ih₁ ih₂ => exact fun x hx => ih₂ (List.mem_cons_of_mem _ (ih₁ hx))

/-- Everything the unfolded items link to is written. -/
theorem linked_mem (h : Unfolds items link done p a k rest out done') (hrest : rest = (items p).drop k)
    {j : Nat} {q : N} (hj : k ≤ j) (hl : LinkAt items link p j q) : q ∈ done' := by
  induction h with
  | nil =>
      obtain ⟨i, b, hi, -⟩ := hl
      have hlen := List.drop_eq_nil_iff.mp hrest.symm
      rw [List.getElem?_eq_none (hlen.trans hj)] at hi
      exact absurd hi (by simp)
  | text ht _ ih =>
      obtain ⟨hi, hrest'⟩ := drop_cons_at hrest
      refine ih hrest' (Nat.lt_of_le_of_ne hj ?_) hl
      rintro rfl
      obtain ⟨i', b, hi', hlink⟩ := hl
      obtain rfl := Option.some.inj (hi.symm.trans hi')
      exact absurd (ht.symm.trans hlink) (by simp)
  | old ho hq hin ih =>
      obtain ⟨hi, hrest'⟩ := drop_cons_at hrest
      rcases Nat.eq_or_lt_of_le hj with rfl | hlt
      · obtain ⟨i', b, hi', hlink⟩ := hl
        obtain rfl := Option.some.inj (hi.symm.trans hi')
        obtain ⟨rfl, -⟩ := Prod.mk.inj (Option.some.inj (ho.symm.trans hlink))
        exact hin.subset hq
      · exact ih hrest' hlt hl
  | fresh hf _ _ hin _ ih₂ =>
      obtain ⟨hi, hrest'⟩ := drop_cons_at hrest
      rcases Nat.eq_or_lt_of_le hj with rfl | hlt
      · obtain ⟨i', b, hi', hlink⟩ := hl
        obtain rfl := Option.some.inj (hi.symm.trans hi')
        obtain ⟨rfl, -⟩ := Prod.mk.inj (Option.some.inj (hf.symm.trans hlink))
        exact hin.subset List.mem_cons_self
      · exact ih₂ hrest' hlt hl

theorem links_mem (h : Unfolds items link done p a 0 (items p) out done') {q : N} (hl : Links items link p q) :
    q ∈ done' := by
  obtain ⟨j, hj⟩ := hl
  exact h.linked_mem rfl (Nat.zero_le j) hj

theorem closed (h : Unfolds items link done p a k rest out done') (hc : Closed items link done) :
    Closed items link done' := by
  induction h with
  | nil => exact hc
  | text _ _ ih => exact ih hc
  | old _ _ _ ih => exact ih hc
  | @fresh done done₁ done₂ p q a b k i rest out₁ out₂ _ _ hin _ ih₁ ih₂ =>
      apply ih₂
      intro x hx y hl
      rcases List.mem_cons.mp hx with rfl | hx
      · exact List.mem_cons_of_mem _ (hin.links_mem hl)
      · exact List.mem_cons_of_mem _ (ih₁ hc x hx y hl)

/-- A document is written only after everything it links to, so no cycle is ever unfolded. -/
theorem acc (h : Unfolds items link done p a k rest out done')
    (hd : ∀ x ∈ done, Acc (fun y x => Links items link x y) x) :
    ∀ x ∈ done', Acc (fun y x => Links items link x y) x := by
  induction h with
  | nil => exact hd
  | text _ _ ih => exact ih hd
  | old _ _ _ ih => exact ih hd
  | @fresh done done₁ done₂ p q a b k i rest out₁ out₂ _ _ hin _ ih₁ ih₂ =>
      apply ih₂
      intro x hx
      rcases List.mem_cons.mp hx with rfl | hx
      · exact Acc.intro _ fun y hl => ih₁ hd y (hin.links_mem hl)
      · exact ih₁ hd x hx

/-- A newly written document is reached through one of the unfolded items. -/
theorem reached (h : Unfolds items link done p a k rest out done') (hrest : rest = (items p).drop k) {x : N}
    (hx : x ∈ done') : x ∈ done ∨ TransGen (Links items link) p x := by
  induction h with
  | nil => exact .inl hx
  | text _ _ ih => exact ih (drop_cons_at hrest).2 hx
  | old _ _ _ ih => exact ih (drop_cons_at hrest).2 hx
  | fresh hf _ _ _ ih₁ ih₂ =>
      obtain ⟨hi, hrest'⟩ := drop_cons_at hrest
      have hlink : Links items link _ _ := ⟨_, _, _, hi, hf⟩
      rcases ih₂ hrest' hx with hx | hr
      · rcases List.mem_cons.mp hx with rfl | hx
        · exact .inr (.single hlink)
        · rcases ih₁ rfl hx with hx | hr
          · exact .inl hx
          · exact .inr (.head hlink hr)
      · exact .inr hr

/-- What is written: the text among the unfolded items and all text of the newly written documents. -/
theorem mem_places (h : Unfolds items link done p a k rest out done') (hrest : rest = (items p).drop k)
    {n : N} {j : Nat} : (n, j) ∈ out.map Piece.place ↔
      (n = p ∧ k ≤ j ∧ TextAt items link p j) ∨ (n ∈ done' ∧ n ∉ done ∧ TextAt items link n j) := by
  induction h generalizing n j with
  | nil =>
      simp only [List.map_nil, List.not_mem_nil, false_iff, not_or, not_and]
      refine ⟨?_, fun hx hx' => absurd hx hx'⟩
      rintro - hj ⟨i, hi, -⟩
      rw [List.getElem?_eq_none ((List.drop_eq_nil_iff.mp hrest.symm).trans hj)] at hi
      exact absurd hi (by simp)
  | @text done done' p a k i rest out ht _ ih =>
      obtain ⟨hi, hrest'⟩ := drop_cons_at hrest
      have hpk : ∀ {j}, (k ≤ j ∧ TextAt items link p j) ↔ j = k ∨ (k + 1 ≤ j ∧ TextAt items link p j) := by
        intro j
        constructor
        · rintro ⟨hj, htext⟩
          rcases Nat.eq_or_lt_of_le hj with rfl | hlt
          · exact .inl rfl
          · exact .inr ⟨hlt, htext⟩
        · rintro (rfl | ⟨hj, htext⟩)
          · exact ⟨le_refl _, i, hi, ht⟩
          · exact ⟨Nat.le_of_succ_le hj, htext⟩
      rw [List.map_cons, List.mem_cons, ih hrest', hpk]
      simp only [Piece.place, Prod.mk.injEq]
      tauto
  | @old done done' p q a b k i rest out ho _ _ ih =>
      obtain ⟨hi, hrest'⟩ := drop_cons_at hrest
      rw [ih hrest']
      have hne : TextAt items link p j → j ≠ k := by
        rintro ⟨i', hi', hl⟩ rfl
        obtain rfl := Option.some.inj (hi.symm.trans hi')
        exact absurd (ho.symm.trans hl) (by simp)
      constructor
      · rintro (⟨hn, hj, ht⟩ | hr)
        · exact .inl ⟨hn, Nat.le_of_succ_le hj, ht⟩
        · exact .inr hr
      · rintro (⟨hn, hj, ht⟩ | hr)
        · exact .inl ⟨hn, Nat.lt_of_le_of_ne hj (hne ht).symm, ht⟩
        · exact .inr hr
  | @fresh done done₁ done₂ p q a b k i rest out₁ out₂ hf hq hin hout ih₁ ih₂ =>
      obtain ⟨hi, hrest'⟩ := drop_cons_at hrest
      have hne : TextAt items link p j → j ≠ k := by
        rintro ⟨i', hi', hl⟩ rfl
        obtain rfl := Option.some.inj (hi.symm.trans hi')
        exact absurd (hf.symm.trans hl) (by simp)
      rw [List.map_append, List.mem_append, ih₁ rfl, ih₂ hrest']
      have hsub := hout.subset
      constructor
      · rintro ((⟨rfl, -, ht⟩ | ⟨hn, hn', ht⟩) | ⟨hn, hj, ht⟩ | ⟨hn, hn', ht⟩)
        · exact .inr ⟨hsub List.mem_cons_self, hq, ht⟩
        · exact .inr ⟨hsub (List.mem_cons_of_mem _ hn), hn', ht⟩
        · exact .inl ⟨hn, Nat.le_of_succ_le hj, ht⟩
        · exact .inr ⟨hn, fun hd => hn' (List.mem_cons_of_mem _ (hin.subset hd)), ht⟩
      · rintro (⟨hn, hj, ht⟩ | ⟨hn, hn', ht⟩)
        · exact .inr (.inl ⟨hn, Nat.lt_of_le_of_ne hj (hne ht).symm, ht⟩)
        · by_cases hnew : n ∈ q :: done₁
          · rcases List.mem_cons.mp hnew with rfl | hd
            · exact .inl (.inl ⟨rfl, Nat.zero_le j, ht⟩)
            · exact .inl (.inr ⟨hd, hn', ht⟩)
          · exact .inr (.inr ⟨hn, hnew, ht⟩)

/-- An acyclic document is not written while it is open. -/
theorem not_mem (h : Unfolds items link done p a k rest out done') (hrest : rest = (items p).drop k)
    (hp : p ∉ done) (hacc : Acc (fun y x => Links items link x y) p) : p ∉ done' := by
  intro hp'
  rcases h.reached hrest hp' with hd | hr
  · exact hp hd
  · exact acyclic_of_acc hacc hr

/-- Acyclicity goes down a link. -/
private theorem acc_link {i : I} {q : N} {b : L} (hi : (items p)[k]? = some i) (hf : link p i = some (q, b))
    (hacc : Acc (fun y x => Links items link x y) p) : Acc (fun y x => Links items link x y) q :=
  hacc.inv ⟨k, i, b, hi, hf⟩

/-- While `p` is open, it is none of the documents that one of its links has just written. -/
private theorem not_mem_fresh {done₁ : List N} {q : N} {b : L} {i : I} {out₁ : List (Piece N L)}
    (hi : (items p)[k]? = some i) (hf : link p i = some (q, b))
    (hin : Unfolds items link done q b 0 (items q) out₁ done₁) (hp : p ∉ done)
    (hacc : Acc (fun y x => Links items link x y) p) : p ∉ q :: done₁ := by
  have hlink : Links items link p q := ⟨k, i, b, hi, hf⟩
  rw [List.mem_cons, not_or]
  constructor
  · rintro rfl
    exact acyclic_of_acc hacc (.single hlink)
  · intro hd
    rcases hin.reached rfl hd with hd | hr
    · exact hp hd
    · exact acyclic_of_acc hacc (.head hlink hr)

/-- The document of a piece written for a fresh link. -/
private theorem node_mem {done₁ : List N} {q : N} {b : L} {out₁ : List (Piece N L)}
    (hin : Unfolds items link done q b 0 (items q) out₁ done₁) {e : Piece N L} (he : e ∈ out₁) :
    e.node ∈ q :: done₁ := by
  rcases (hin.mem_places rfl).mp (List.mem_map_of_mem he) with ⟨hn, -⟩ | ⟨hn, -⟩
  · exact hn ▸ List.mem_cons_self
  · exact List.mem_cons_of_mem _ hn

/-- The document of a piece is the open one or newly written. -/
private theorem node_cases (h : Unfolds items link done p a k rest out done') (hrest : rest = (items p).drop k)
    {e : Piece N L} (he : e ∈ out) : (e.node = p ∧ k ≤ e.index) ∨ e.node ∉ done := by
  rcases (h.mem_places hrest).mp (List.mem_map_of_mem he) with ⟨hn, hk, -⟩ | ⟨-, hn, -⟩
  · exact .inl ⟨hn, hk⟩
  · exact .inr hn

/-- No text item is written twice. -/
theorem nodup_places (h : Unfolds items link done p a k rest out done') (hrest : rest = (items p).drop k)
    (hp : p ∉ done) (hacc : Acc (fun y x => Links items link x y) p) : (out.map Piece.place).Nodup := by
  induction h with
  | nil => exact List.nodup_nil
  | text _ hin ih =>
      obtain ⟨-, hrest'⟩ := drop_cons_at hrest
      rw [List.map_cons, List.nodup_cons]
      refine ⟨fun hmem => ?_, ih hrest' hp hacc⟩
      rcases (hin.mem_places hrest').mp hmem with ⟨-, hk, -⟩ | ⟨hd, -⟩
      · exact absurd hk (Nat.not_succ_le_self _)
      · exact hin.not_mem hrest' hp hacc hd
  | old _ _ _ ih => exact ih (drop_cons_at hrest).2 hp hacc
  | fresh hf hq hin hout ih₁ ih₂ =>
      obtain ⟨hi, hrest'⟩ := drop_cons_at hrest
      have hp' := not_mem_fresh hi hf hin hp hacc
      rw [List.map_append, List.nodup_append]
      refine ⟨ih₁ rfl hq (acc_link hi hf hacc), ih₂ hrest' hp' hacc, ?_⟩
      intro x hx y hy hxy
      obtain ⟨e, he, rfl⟩ := List.mem_map.mp hx
      obtain ⟨e', he', rfl⟩ := List.mem_map.mp hy
      have hnode : e.node = e'.node := congrArg Prod.fst hxy
      have hmem := hin.node_mem he
      rcases hout.node_cases hrest' he' with ⟨hn, -⟩ | hn
      · exact hp' (hn ▸ hnode ▸ hmem)
      · exact hn (hnode ▸ hmem)

/-- Nothing is written before an item it has to follow. -/
theorem ordered (h : Unfolds items link done p a k rest out done') (hrest : rest = (items p).drop k)
    (hp : p ∉ done) (hacc : Acc (fun y x => Links items link x y) p) (hc : Closed items link done)
    (hearlier : ∀ j q, j < k → LinkAt items link p j q → q ∈ done) :
    out.Pairwise fun x y => ¬ Precedes items link y x := by
  induction h with
  | nil => exact List.Pairwise.nil
  | @text done done' p a k i rest out ht hin ih =>
      obtain ⟨hi, hrest'⟩ := drop_cons_at hrest
      rw [List.pairwise_cons]
      constructor
      · rintro e he (⟨hn, hlt⟩ | ⟨j, m, hj, hlink, hr⟩)
        · change e.node = p at hn
          rcases (hin.mem_places hrest').mp (List.mem_map_of_mem he) with ⟨-, hk, -⟩ | ⟨hd, -⟩
          · exact absurd (Nat.lt_of_succ_le hk) (Nat.lt_asymm hlt)
          · exact hin.not_mem hrest' hp hacc (hn ▸ hd)
        · -- the links before the `k`-th item and all they lead to are written already
          have hd : e.node ∈ done := hc.reach (hearlier j m hj hlink) hr
          rcases hin.node_cases hrest' he with ⟨hn, -⟩ | hn
          · exact hp (hn ▸ hd)
          · exact hn hd
      · refine ih hrest' hp hacc hc fun j q hj hlink => ?_
        rcases Nat.eq_or_lt_of_le (Nat.le_of_lt_succ hj) with rfl | hlt
        · obtain ⟨i', b, hi', hl⟩ := hlink
          obtain rfl := Option.some.inj (hi.symm.trans hi')
          exact absurd (ht.symm.trans hl) (by simp)
        · exact hearlier j q hlt hlink
  | old ho hq _ ih =>
      obtain ⟨hi, hrest'⟩ := drop_cons_at hrest
      refine ih hrest' hp hacc hc fun j q hj hlink => ?_
      rcases Nat.eq_or_lt_of_le (Nat.le_of_lt_succ hj) with rfl | hlt
      · obtain ⟨i', b, hi', hl⟩ := hlink
        obtain rfl := Option.some.inj (hi.symm.trans hi')
        obtain ⟨rfl, -⟩ := Prod.mk.inj (Option.some.inj (ho.symm.trans hl))
        exact hq
      · exact hearlier j q hlt hlink
  | @fresh done done₁ done₂ p q a b k i rest out₁ out₂ hf hq hin hout ih₁ ih₂ =>
      obtain ⟨hi, hrest'⟩ := drop_cons_at hrest
      have hp' := not_mem_fresh hi hf hin hp hacc
      have hc' : Closed items link (q :: done₁) := by
        intro x hx y hl
        rcases List.mem_cons.mp hx with rfl | hx
        · exact List.mem_cons_of_mem _ (hin.links_mem hl)
        · exact List.mem_cons_of_mem _ (hin.closed hc x hx y hl)
      rw [List.pairwise_append]
      refine ⟨ih₁ rfl hq (acc_link hi hf hacc) hc fun j _ hj => absurd hj (Nat.not_lt_zero j),
        ih₂ hrest' hp' hacc hc' fun j r hj hlink => ?_, ?_⟩
      · rcases Nat.eq_or_lt_of_le (Nat.le_of_lt_succ hj) with rfl | hlt
        · obtain ⟨i', b', hi', hl⟩ := hlink
          obtain rfl := Option.some.inj (hi.symm.trans hi')
          obtain ⟨rfl, -⟩ := Prod.mk.inj (Option.some.inj (hf.symm.trans hl))
          exact List.mem_cons_self
        · exact List.mem_cons_of_mem _ (hin.subset (hearlier j r hlt hlink))
      · -- what precedes a piece of the linked document is written with it
        intro x hx y hy hpre
        have hxmem := hin.node_mem hx
        have hymem : y.node ∈ q :: done₁ := by
          rcases hpre with ⟨hn, -⟩ | ⟨j, m, -, hlink, hr⟩
          · exact hn ▸ hxmem
          · exact hc'.reach (hc' _ hxmem _ ⟨j, hlink⟩) hr
        rcases hout.node_cases hrest' hy with ⟨hn, -⟩ | hn
        · exact hp' (hn ▸ hymem)
        · exact hn hymem

end Unfolds

namespace Expands

variable {root : N} {a : L} {out : List (Piece N L)} {done : List N}

theorem acc (h : Expands items link root a out done) : Acc (fun y x => Links items link x y) root := by
  refine Acc.intro _ fun y hl => ?_
  exact Unfolds.acc h (fun x hx => absurd hx (by simp)) y (Unfolds.links_mem h hl)

/-- An unfolded document reaches no cycle. -/
theorem acyclic (h : Expands items link root a out done) {q : N} (hq : ReflTransGen (Links items link) root q) :
    ¬ TransGen (Links items link) q q := by
  have hacc : Acc (fun y x => Links items link x y) q := by
    induction hq with
    | refl => exact h.acc
    | tail _ hl ih => exact ih.inv hl
  exact acyclic_of_acc hacc

/-- The documents written are exactly those the root reaches. -/
theorem mem_iff (h : Expands items link root a out done) {q : N} :
    q ∈ root :: done ↔ ReflTransGen (Links items link) root q := by
  constructor
  · intro hq
    rcases List.mem_cons.mp hq with rfl | hq
    · exact .refl
    · rcases Unfolds.reached h rfl hq with hq | hr
      · exact absurd hq (by simp)
      · exact hr.to_reflTransGen
  · intro hr
    rcases ReflTransGen.cases_head hr with rfl | ⟨m, hl, hr⟩
    · exact List.mem_cons_self
    · have hc : Closed items link done := Unfolds.closed h fun x hx => absurd hx (by simp)
      exact List.mem_cons_of_mem _ (hc.reach (Unfolds.links_mem h hl) hr)

/-- Every text item of a reachable document is written, and nothing else is. -/
theorem mem_places (h : Expands items link root a out done) {n : N} {j : Nat} :
    (n, j) ∈ out.map Piece.place ↔ ReflTransGen (Links items link) root n ∧ TextAt items link n j := by
  rw [Unfolds.mem_places h rfl, ← h.mem_iff, List.mem_cons]
  constructor
  · rintro (⟨rfl, -, ht⟩ | ⟨hn, -, ht⟩)
    · exact ⟨.inl rfl, ht⟩
    · exact ⟨.inr hn, ht⟩
  · rintro ⟨rfl | hn, ht⟩
    · exact .inl ⟨rfl, Nat.zero_le j, ht⟩
    · exact .inr ⟨hn, by simp, ht⟩

theorem nodup_places (h : Expands items link root a out done) : (out.map Piece.place).Nodup :=
  Unfolds.nodup_places h rfl (by simp) h.acc

theorem ordered (h : Expands items link root a out done) : out.Pairwise fun x y => ¬ Precedes items link y x :=
  Unfolds.ordered h rfl (by simp) h.acc (fun x hx => absurd hx (by simp)) fun j _ hj => absurd hj (Nat.not_lt_zero j)

end Expands

end

end Vnt.Lib
