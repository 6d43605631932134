import Vnt.StdLib.Strings

/-!
# `StdLib.Path` — lexical paths (`path.vnt`)

`basename`, `dirname`, `extension`, `join`, `is_absolute` and `change_extension`, each as the loops over the indices of the path
with `/` for `\` that the source has.
-/

namespace Vnt.StdLib.Path

open Lib (Turn)
open Net (Bytes ascii)

def slash : UInt8 := 47
def backslash : UInt8 := 92
def colon : UInt8 := 58
def dot : UInt8 := 46

def normalizePath (path : Bytes) : Hosted Bytes := replace path [backslash] [slash]

/-- `len(path) >= 3 && path[1] == ":" && path[2] == "/"` -/
def driveStart (path : Bytes) : Hosted Bool :=
  if path.length ≥ 3 then do
    let second ← stringGet path 1
    if second = colon then do
      let third ← stringGet path 2
      pure (third = slash)
    else pure false
  else pure false

/-- `while i < len(normalized) { if normalized[i] != "/" { return false } … }` -/
def slashesTurn (path : Bytes) (i : Nat) : Hosted (Turn Nat Bool) :=
  if i < path.length then do
    let ch ← stringGet path i
    if ch ≠ slash then pure (.done false) else pure (.next (i + 1))
  else pure (.done true)

def isDriveRoot (path : Bytes) : Hosted Bool := do
  let normalized ← normalizePath path
  if !(← driveStart normalized) then pure false
  else whileLoop (normalized.length + 1) (slashesTurn normalized) 2

def driveRootValue (path : Bytes) : Hosted Bytes := do
  let normalized ← normalizePath path
  let first ← stringGet normalized 0
  let second ← stringGet normalized 1
  pure [first, second, slash]

/-- `while end > least && normalized[end - 1] == "/" { end -= 1 }` -/
def endTurn (path : Bytes) (least stop : Nat) : Hosted (Turn Nat Nat) :=
  if stop > least then do
    let ch ← stringGet path ((stop : Int) - 1)
    if ch = slash then pure (.next (stop - 1)) else pure (.done stop)
  else pure (.done stop)

/-- `while start > 0 && normalized[start - 1] != "/" { start -= 1 }` -/
def startTurn (path : Bytes) (start : Nat) : Hosted (Turn Nat Nat) :=
  if start > 0 then do
    let ch ← stringGet path ((start : Int) - 1)
    if ch ≠ slash then pure (.next (start - 1)) else pure (.done start)
  else pure (.done start)

def basenameValue (path : Bytes) : Hosted Bytes := do
  let normalized ← normalizePath path
  if ← isDriveRoot normalized then pure []
  else do
    let stop ← whileLoop (normalized.length + 1) (endTurn normalized 0) normalized.length
    let start ← whileLoop (normalized.length + 1) (startTurn normalized) stop
    slice normalized start stop

def basename (path : Bytes) : Hosted Bytes := basenameValue path

/-- `while i < end { if value[i] == target { place = i } … }`, on `place` and `i`. -/
def lastTurn (value : Bytes) (stop : Nat) (target : UInt8) : Int × Nat → Hosted (Turn (Int × Nat) Int)
  | (place, i) =>
      if i < stop then do
        let ch ← stringGet value i
        if ch = target then pure (.next (i, i + 1)) else pure (.next (place, i + 1))
      else pure (.done place)

def lastPlace (value : Bytes) (stop : Nat) (target : UInt8) : Hosted Int :=
  whileLoop (value.length + 1) (lastTurn value stop target) (-1, 0)

/-- `len(normalized) >= 3 && normalized[1] == ":"` behind `separator == 2`. -/
def driveSeparator (path : Bytes) (separator : Int) : Hosted Bool :=
  if separator = 2 ∧ path.length ≥ 3 then do
    let second ← stringGet path 1
    pure (second = colon)
  else pure false

/-- What is in front of the last separator, with the roots that keep theirs. -/
def dirnameFrom (normalized : Bytes) (separator : Int) : Hosted Bytes :=
  if separator = -1 then pure (ascii ".")
  else if separator = 0 then pure (ascii "/")
  else do
    if ← driveSeparator normalized separator then do
      let first ← stringGet normalized 0
      let second ← stringGet normalized 1
      pure [first, second, slash]
    else slice normalized 0 separator.toNat

def dirnameValue (path : Bytes) : Hosted Bytes := do
  let normalized ← normalizePath path
  if ← isDriveRoot normalized then driveRootValue normalized
  else do
    let stop ← whileLoop (normalized.length + 1) (endTurn normalized 1) normalized.length
    let separator ← lastPlace normalized stop slash
    dirnameFrom normalized separator

def dirname (path : Bytes) : Hosted Bytes := dirnameValue path

def extensionValue (path : Bytes) : Hosted Bytes := do
  let name ← basenameValue path
  let place ← lastPlace name name.length dot
  if place ≤ 0 then pure []
  else slice name (place.toNat + 1) name.length

def extension (path : Bytes) : Hosted Bytes := extensionValue path

/-- `normalized_left[len(normalized_left) - 1] == "/"`, and the two in one. -/
def joinNormal (left right : Bytes) : Hosted Bytes := do
  let last ← stringGet left ((left.length : Int) - 1)
  if last = slash then pure (left ++ right) else pure (left ++ [slash] ++ right)

def join (left right : Bytes) : Hosted Bytes :=
  if right.length = 0 then normalizePath left
  else if left.length = 0 then normalizePath right
  else do
    let normalizedLeft ← normalizePath left
    let normalizedRight ← normalizePath right
    let first ← stringGet normalizedRight 0
    if first = slash then pure normalizedRight
    else do
      if ← driveStart normalizedRight then pure normalizedRight
      else joinNormal normalizedLeft normalizedRight

def isAbsolute (path : Bytes) : Hosted Bool := do
  let normalized ← normalizePath path
  if normalized.length = 0 then pure false
  else do
    let first ← stringGet normalized 0
    if first = slash then pure true else driveStart normalized

/-- `stem_name` -/
def stemName (name : Bytes) (place : Int) : Hosted Bytes :=
  if place > 0 then slice name 0 place.toNat else pure name

/-- `clean_extension` -/
def cleanExtension (newExtension : Bytes) : Hosted Bytes :=
  if newExtension.length > 0 then do
    let first ← stringGet newExtension 0
    if first ≠ dot then pure (dot :: newExtension) else pure newExtension
  else pure newExtension

/-- `parent == "/" || (len(parent) == 3 && parent[1] == ":" && parent[2] == "/")` -/
def isRootParent (parent : Bytes) : Hosted Bool :=
  if parent = ascii "/" then pure true
  else if parent.length = 3 then driveStart parent
  else pure false

def changeExtension (path newExtension : Bytes) : Hosted Bytes := do
  let normalized ← normalizePath path
  let name ← basenameValue normalized
  let parent ← dirnameValue normalized
  let place ← lastPlace name name.length dot
  let stem ← stemName name place
  let clean ← cleanExtension newExtension
  if parent = ascii "." then pure (stem ++ clean)
  else do
    if ← isRootParent parent then pure (parent ++ (stem ++ clean))
    else pure (parent ++ [slash] ++ (stem ++ clean))

/-!
## What `basename` and `dirname` cut out

A path with `/` for `\` is empty, a root, a drive root, a single name, or a name behind something; slashes may follow the name
(`Parts`). Every path has such parts, and the loops of `basename` and `dirname` find them.
-/

open Lib (Turn pieces OccursAt)

variable {p n s b d v : Bytes} {c x : UInt8} {i k stop : Nat}

/-! ## `normalize_path` -/

/-- The path with `/` for `\`. -/
def norm (p : Bytes) : Bytes := p.map fun c => if c = backslash then slash else c

/-- Replacing one character by another. -/
theorem intercalate_pieces_single (c r : UInt8) (v : Bytes) :
    [r].intercalate (pieces [c] v) = v.map fun x => if x = c then r else x := by
  have hn : ([c] : Bytes) ≠ [] := List.cons_ne_nil _ _
  induction v with
  | nil => rw [Lib.pieces_nil hn, List.intercalate_singleton, List.map_nil]
  | cons x rest ih =>
      by_cases hx : x = c
      · have hmatch : [c] <+: x :: rest := ⟨rest, by rw [hx]; rfl⟩
        obtain ⟨piece, more, hpieces⟩ := List.exists_cons_of_ne_nil (@Lib.pieces_ne_nil _ _ [c] rest hn)
        rw [Lib.pieces_match hn hmatch, List.map_cons, if_pos hx, ← ih]
        show [r].intercalate ([] :: pieces [c] rest) = r :: [r].intercalate (pieces [c] rest)
        rw [hpieces, List.intercalate_cons_cons]
        rfl
      · have hno : ¬[c] <+: x :: rest := by
          rintro ⟨t, ht⟩
          exact hx (List.cons.inj ht).1.symm
        rw [Lib.pieces_cons hno, Lib.intercalate_glue _ (Lib.pieces_ne_nil hn), ih, List.map_cons, if_neg hx]
        rfl

theorem normalizePath_ok (p : Bytes) : normalizePath p = .ok (norm p) := by
  rw [normalizePath, replace_ok (List.cons_ne_nil _ _), intercalate_pieces_single]
  rfl

theorem backslash_norm (p : Bytes) : backslash ∉ norm p := by
  intro h
  obtain ⟨c, -, hc⟩ := List.mem_map.mp h
  split at hc
  · exact absurd hc (by decide)
  · next hne => exact hne hc

theorem norm_eq (h : backslash ∉ n) : norm n = n := by
  refine (List.map_congr_left fun c hc => if_neg ?_).trans (List.map_id n)
  rintro rfl
  exact h hc

theorem norm_norm (p : Bytes) : norm (norm p) = norm p := norm_eq (backslash_norm p)

/-! ## Drives -/

/-- A drive, its colon and a slash in front. -/
def driveStarts : Bytes → Bool
  | _ :: second :: third :: _ => second = colon && third = slash
  | _ => false

/-- A drive with nothing but slashes behind it. -/
def driveRoots (n : Bytes) : Bool := driveStarts n && (n.drop 2).all fun c => c = slash

theorem driveStart_ok (n : Bytes) : driveStart n = .ok (driveStarts n) := by
  match n with
  | [] => rfl
  | [_] => rfl
  | [_, _] => rfl
  | first :: second :: third :: rest =>
      have hlong : (first :: second :: third :: rest).length ≥ 3 := Nat.le_add_left 3 rest.length
      have hsecond : stringGet (first :: second :: third :: rest) 1 = .ok second := rfl
      have hthird : stringGet (first :: second :: third :: rest) 2 = .ok third := rfl
      rw [driveStart, if_pos hlong, hsecond, ok_bind, hthird]
      by_cases hcolon : second = colon
      · rw [if_pos hcolon, driveStarts, decide_eq_true hcolon]
        rfl
      · rw [if_neg hcolon, driveStarts, decide_eq_false hcolon]
        rfl

theorem slashes_ok (n : Bytes) (i : Nat) : whileLoop (n.length + 1) (slashesTurn n) i =
    .ok ((n.drop i).all fun c => c = slash) := by
  refine @whileLoop_eq _ _ (slashesTurn n) (n.length + 1) i (fun _ => True) (fun i => (n.drop i).all fun c => c = slash)
    (fun i => n.length - i) ?_ trivial (Nat.lt_succ_of_le (Nat.sub_le _ _))
  rintro i -
  by_cases hlt : i < n.length
  · have hcons : n.drop i = n[i] :: n.drop (i + 1) := List.drop_eq_getElem_cons hlt
    rw [slashesTurn, if_pos hlt, stringGet_ok hlt, ok_bind]
    by_cases hslash : n[i] ≠ slash
    · rw [if_pos hslash]
      refine ⟨_, rfl, ?_⟩
      show false = (n.drop i).all fun c => c = slash
      rw [hcons, List.all_cons, decide_eq_false hslash]
      rfl
    · rw [if_neg hslash]
      refine ⟨_, rfl, ⟨trivial, ?_⟩, Nat.sub_lt_sub_left hlt (Nat.lt_succ_self i)⟩
      show ((n.drop (i + 1)).all fun c => c = slash) = (n.drop i).all fun c => c = slash
      rw [hcons, List.all_cons, decide_eq_true (not_not.mp hslash)]
      rfl
  · rw [slashesTurn, if_neg hlt]
    refine ⟨_, rfl, ?_⟩
    show true = (n.drop i).all fun c => c = slash
    rw [List.drop_of_length_le (Nat.le_of_not_lt hlt)]
    rfl

theorem isDriveRoot_ok (p : Bytes) : isDriveRoot p = .ok (driveRoots (norm p)) := by
  rw [isDriveRoot, normalizePath_ok, ok_bind, driveStart_ok, ok_bind, driveRoots]
  cases driveStarts (norm p) with
  | false => rfl
  | true => exact slashes_ok (norm p) 2

theorem driveRoots_iff (n : Bytes) :
    driveRoots n = true ↔ ∃ x k, n = x :: colon :: List.replicate (k + 1) slash := by
  constructor
  · intro h
    match n with
    | [] => cases h
    | [_] => cases h
    | [_, _] => cases h
    | x :: second :: third :: rest =>
        obtain ⟨hstart, hall⟩ := Bool.and_eq_true_iff.mp h
        obtain ⟨hcolon, -⟩ := Bool.and_eq_true_iff.mp hstart
        have hslashes : third :: rest = List.replicate (rest.length + 1) slash := by
          apply List.eq_replicate_of_mem
          intro c hc
          exact of_decide_eq_true (List.all_eq_true.mp hall c hc)
        exact ⟨x, rest.length, by rw [← hslashes, of_decide_eq_true hcolon]⟩
  · rintro ⟨x, k, rfl⟩
    have hall : (List.replicate (k + 1) slash).all (fun c => c = slash) = true :=
      List.all_eq_true.mpr fun c hc => decide_eq_true (List.eq_of_mem_replicate hc)
    exact Bool.and_eq_true_iff.mpr ⟨rfl, hall⟩

theorem driveRootValue_ok {k : Nat} (h : norm p = x :: colon :: List.replicate k slash) :
    driveRootValue p = .ok [x, colon, slash] := by
  rw [driveRootValue, normalizePath_ok, ok_bind, h]
  rfl

/-! ## The loops over the indices -/

theorem stringGet_back {v : Bytes} (hi : i < v.length) : stringGet v (((i + 1 : ℕ) : Int) - 1) = .ok v[i] := by
  have hback : ((i + 1 : ℕ) : Int) - 1 = (i : ℕ) := by omega
  rw [hback, stringGet_ok hi]

/-- The slashes at the end are passed, down to `least`. -/
theorem end_ok {least : ℕ} {t : Bytes} (k : ℕ) (hlast : least < t.length → ∀ ch ∈ t.getLast?, ch ≠ slash)
    (hleast : least ≤ t.length ∨ k = 0) : whileLoop ((t ++ List.replicate k slash).length + 1)
      (endTurn (t ++ List.replicate k slash) least) (t ++ List.replicate k slash).length = .ok t.length := by
  have hlength : (t ++ List.replicate k slash).length = t.length + k := by rw [List.length_append, List.length_replicate]
  refine @whileLoop_eq _ _ (endTurn (t ++ List.replicate k slash) least)
    ((t ++ List.replicate k slash).length + 1) (t ++ List.replicate k slash).length
    (fun i => t.length ≤ i ∧ i ≤ t.length + k) (fun _ => t.length) (fun i => i) ?_
    (by rw [hlength]; exact ⟨Nat.le_add_right _ _, Nat.le_refl _⟩) (Nat.lt_succ_self _)
  rintro i ⟨hlow, hhigh⟩
  by_cases hgo : i > least
  · obtain ⟨j, rfl⟩ : ∃ j, i = j + 1 := ⟨i - 1, by omega⟩
    have hj : j < (t ++ List.replicate k slash).length := by omega
    rw [endTurn, if_pos hgo, stringGet_back hj, ok_bind]
    by_cases hinside : t.length ≤ j
    · have hslash : (t ++ List.replicate k slash)[j] = slash := by
        rw [List.getElem_append_right hinside, List.getElem_replicate]
      rw [if_pos hslash]
      exact ⟨_, rfl, ⟨⟨hinside, by omega⟩, rfl⟩, Nat.lt_succ_self j⟩
    · have hend : t.length = j + 1 := by omega
      have hch : (t ++ List.replicate k slash)[j] ≠ slash := by
        have hjt : j < t.length := by omega
        rw [List.getElem_append_left hjt]
        apply hlast (by omega)
        rw [List.getLast?_eq_getElem?, hend, Nat.add_sub_cancel, List.getElem?_eq_getElem hjt]
        rfl
      rw [if_neg hch]
      exact ⟨_, rfl, hend.symm⟩
  · rw [endTurn, if_neg hgo]
    refine ⟨_, rfl, ?_⟩
    show i = t.length
    omega

/-- The characters of a name are passed back to the slash in front of it. -/
theorem start_ok {h : Bytes} (hb : slash ∉ b) (hh : ∀ ch ∈ h.getLast?, ch = slash) (k : ℕ) :
    whileLoop ((h ++ b ++ List.replicate k slash).length + 1) (startTurn (h ++ b ++ List.replicate k slash))
      (h ++ b).length = .ok h.length := by
  have hlength : (h ++ b ++ List.replicate k slash).length = h.length + b.length + k := by
    rw [List.length_append, List.length_append, List.length_replicate]
  refine @whileLoop_eq _ _ (startTurn (h ++ b ++ List.replicate k slash))
    ((h ++ b ++ List.replicate k slash).length + 1) (h ++ b).length
    (fun i => h.length ≤ i ∧ i ≤ h.length + b.length) (fun _ => h.length) (fun i => i) ?_
    (by rw [List.length_append]; exact ⟨Nat.le_add_right _ _, Nat.le_refl _⟩)
    (by rw [hlength, List.length_append]; omega)
  rintro i ⟨hlow, hhigh⟩
  by_cases hgo : i > 0
  · obtain ⟨j, rfl⟩ : ∃ j, i = j + 1 := ⟨i - 1, by omega⟩
    have hj : j < (h ++ b ++ List.replicate k slash).length := by omega
    have hfront : j < (h ++ b).length := by
      rw [List.length_append]
      omega
    rw [startTurn, if_pos hgo, stringGet_back hj, ok_bind, List.getElem_append_left hfront]
    by_cases hinside : h.length ≤ j
    · have hch : (h ++ b)[j] ≠ slash := by
        rw [List.getElem_append_right hinside]
        exact fun heq => hb (heq ▸ List.getElem_mem _)
      rw [if_pos hch]
      exact ⟨_, rfl, ⟨⟨hinside, by omega⟩, rfl⟩, Nat.lt_succ_self j⟩
    · have hend : h.length = j + 1 := by omega
      have hch : (h ++ b)[j] = slash := by
        have hjh : j < h.length := by omega
        rw [List.getElem_append_left hjh]
        apply hh
        rw [List.getLast?_eq_getElem?, hend, Nat.add_sub_cancel, List.getElem?_eq_getElem hjh]
        rfl
      rw [if_neg (not_not.mpr hch)]
      exact ⟨_, rfl, hend.symm⟩
  · rw [startTurn, if_neg hgo]
    refine ⟨_, rfl, ?_⟩
    show i = h.length
    omega

/-- The last place of a character that occurs. -/
theorem lastPlace_ok {a rest : Bytes} (hb : c ∉ b) :
    lastPlace (a ++ c :: b ++ rest) (a ++ c :: b).length c = .ok (a.length : Int) := by
  have hlength : (a ++ c :: b).length = a.length + b.length + 1 := by
    rw [List.length_append, List.length_cons]
    omega
  refine @whileLoop_eq _ _ (lastTurn (a ++ c :: b ++ rest) (a ++ c :: b).length c)
    ((a ++ c :: b ++ rest).length + 1) (-1, 0)
    (fun s => s.2 ≤ (a ++ c :: b).length ∧ (a.length < s.2 → s.1 = (a.length : Int))) (fun _ => (a.length : Int))
    (fun s => (a ++ c :: b).length - s.2) ?_ ⟨Nat.zero_le _, fun h => absurd h (Nat.not_lt_zero _)⟩
    (by
      rw [@List.length_append _ (a ++ c :: b) rest]
      show (a ++ c :: b).length - 0 < _
      omega)
  rintro ⟨place, i⟩ ⟨hle, hplace⟩
  have hlei : i ≤ (a ++ c :: b).length := hle
  by_cases hlt : i < (a ++ c :: b).length
  · have hi : i < (a ++ c :: b ++ rest).length := by
      rw [@List.length_append _ (a ++ c :: b) rest]
      omega
    rw [lastTurn, if_pos hlt, stringGet_ok hi, ok_bind, List.getElem_append_left hlt]
    by_cases hch : (a ++ c :: b)[i] = c
    · rw [if_pos hch]
      refine ⟨_, rfl, ⟨⟨hlt, fun hbehind => ?_⟩, rfl⟩, Nat.sub_lt_sub_left hlt (Nat.lt_succ_self i)⟩
      -- Behind the place in question the character does not come again.
      have hnot : ¬a.length < i := by
        intro hai
        obtain ⟨j, rfl⟩ : ∃ j, i = a.length + (j + 1) := ⟨i - a.length - 1, by omega⟩
        rw [List.getElem_append_right (Nat.le_add_right _ _)] at hch
        simp only [Nat.add_sub_cancel_left, List.getElem_cons_succ] at hch
        exact hb (hch ▸ List.getElem_mem _)
      have hia : i = a.length := by
        have hbehind' : a.length < i + 1 := hbehind
        omega
      rw [hia]
    · rw [if_neg hch]
      refine ⟨_, rfl, ⟨⟨hlt, fun hbehind => ?_⟩, rfl⟩, Nat.sub_lt_sub_left hlt (Nat.lt_succ_self i)⟩
      apply hplace
      have hne : i ≠ a.length := by
        rintro rfl
        apply hch
        rw [List.getElem_append_right (Nat.le_refl _)]
        simp
      have hbehind' : a.length < i + 1 := hbehind
      show a.length < i
      omega
  · rw [lastTurn, if_neg hlt]
    refine ⟨_, rfl, ?_⟩
    show place = (a.length : Int)
    apply hplace
    show a.length < i
    omega

/-- There is no place of a character that does not occur. -/
theorem lastPlace_none {a rest : Bytes} (ha : c ∉ a) : lastPlace (a ++ rest) a.length c = .ok (-1) := by
  refine @whileLoop_eq _ _ (lastTurn (a ++ rest) a.length c) ((a ++ rest).length + 1) (-1, 0)
    (fun s => s.2 ≤ a.length ∧ s.1 = -1) (fun _ => -1) (fun s => a.length - s.2) ?_ ⟨Nat.zero_le _, rfl⟩
    (by
      rw [List.length_append]
      show a.length - 0 < _
      omega)
  rintro ⟨place, i⟩ ⟨hle, hplace⟩
  by_cases hlt : i < a.length
  · have hi : i < (a ++ rest).length := by
      rw [List.length_append]
      omega
    have hch : ¬a[i] = c := fun heq => ha (heq ▸ List.getElem_mem _)
    rw [lastTurn, if_pos hlt, stringGet_ok hi, ok_bind, List.getElem_append_left hlt, if_neg hch]
    exact ⟨_, rfl, ⟨⟨hlt, hplace⟩, rfl⟩, Nat.sub_lt_sub_left hlt (Nat.lt_succ_self i)⟩
  · rw [lastTurn, if_neg hlt]
    exact ⟨_, rfl, hplace⟩

/-! ## The parts of a path -/

/-- The last component: not empty, and without slashes. -/
def IsName (b : Bytes) : Prop := b ≠ [] ∧ slash ∉ b

/-- What stands in front of the last slash, as a path: the root and a drive keep the slash. -/
def parentOf (d : Bytes) : Bytes :=
  if d = [] then [slash] else if d.length = 2 ∧ d[1]? = some colon then d ++ [slash] else d

/-- The forms of a path with `/` for `\`, with what `dirname` and `basename` make of them. -/
inductive Parts : Bytes → Bytes → Bytes → Prop
  | empty : Parts [] [dot] []
  | root (k : ℕ) : Parts (List.replicate (k + 1) slash) [slash] []
  | drive (x : UInt8) (k : ℕ) : Parts (x :: colon :: List.replicate (k + 1) slash) [x, colon, slash] []
  | plain {b : Bytes} (k : ℕ) (hb : IsName b) (hdrive : driveRoots (b ++ List.replicate k slash) = false) :
      Parts (b ++ List.replicate k slash) [dot] b
  | under {d b : Bytes} (k : ℕ) (hb : IsName b) (hdrive : driveRoots (d ++ slash :: b ++ List.replicate k slash) = false) :
      Parts (d ++ slash :: b ++ List.replicate k slash) (parentOf d) b

/-- The last occurrence in a list. -/
theorem exists_last {t : Bytes} (h : c ∈ t) : ∃ a b, t = a ++ c :: b ∧ c ∉ b := by
  induction t with
  | nil => exact absurd h List.not_mem_nil
  | cons x rest ih =>
      by_cases hrest : c ∈ rest
      · obtain ⟨a, b, rfl, hb⟩ := ih hrest
        exact ⟨x :: a, b, rfl, hb⟩
      · obtain rfl : c = x := (List.mem_cons.mp h).resolve_right hrest
        exact ⟨[], rest, rfl, hrest⟩

/-- Every path has one of the forms. -/
theorem parts_exist (n : Bytes) : ∃ dir base, Parts n dir base := by
  by_cases hdrive : driveRoots n = true
  · obtain ⟨x, k, rfl⟩ := (driveRoots_iff n).mp hdrive
    exact ⟨_, _, .drive x k⟩
  rw [Bool.not_eq_true] at hdrive
  -- The slashes at the end, and what stands in front of them.
  have hsplit := @List.rdropWhile_append_rtakeWhile _ (fun ch : UInt8 => decide (ch = slash)) n
  have hslashes : n.rtakeWhile (fun ch => decide (ch = slash)) =
      List.replicate (n.rtakeWhile fun ch => decide (ch = slash)).length slash := by
    apply List.eq_replicate_of_mem
    intro ch hch
    have hin : decide (ch = slash) = true := @List.mem_rtakeWhile_imp _ (fun ch => decide (ch = slash)) n ch hch
    exact of_decide_eq_true hin
  have hlast : ∀ hne : n.rdropWhile (fun ch => decide (ch = slash)) ≠ [],
      (n.rdropWhile fun ch => decide (ch = slash)).getLast hne ≠ slash := by
    intro hne heq
    exact List.rdropWhile_last_not _ _ hne (decide_eq_true heq)
  generalize (n.rtakeWhile fun ch => decide (ch = slash)).length = k at hslashes
  generalize n.rdropWhile (fun ch => decide (ch = slash)) = t at hsplit hlast
  rw [hslashes] at hsplit
  subst hsplit
  by_cases hempty : t = []
  · subst hempty
    cases k with
    | zero => exact ⟨_, _, .empty⟩
    | succ k => exact ⟨_, _, .root k⟩
  by_cases hslash : slash ∈ t
  · obtain ⟨d, b, rfl, hb⟩ := exists_last hslash
    refine ⟨_, _, .under k ⟨?_, hb⟩ hdrive⟩
    rintro rfl
    apply hlast hempty
    rw [List.getLast_append_of_ne_nil _ (List.cons_ne_nil _ _)]
    rfl
  · exact ⟨_, _, .plain k ⟨hempty, hslash⟩ hdrive⟩

theorem not_driveRoots_replicate (k : ℕ) : driveRoots (List.replicate k slash) = false := by
  rw [Bool.eq_false_iff]
  intro h
  obtain ⟨x, j, heq⟩ := (driveRoots_iff _).mp h
  have hcolon : colon ∈ List.replicate k slash := by
    rw [heq]
    exact List.mem_cons_of_mem _ List.mem_cons_self
  exact absurd (List.eq_of_mem_replicate hcolon) (by decide)

theorem IsName.last (hb : IsName b) : ∀ ch ∈ b.getLast?, ch ≠ slash := by
  rintro ch hch rfl
  exact hb.2 (List.mem_of_getLast? hch)

/-- The name is cut out between the loops from the end. -/
theorem basename_cut {h : Bytes} {k : ℕ} (hnorm : norm p = h ++ b ++ List.replicate k slash)
    (hdrive : driveRoots (norm p) = false) (hb : slash ∉ b) (hlast : ∀ ch ∈ b.getLast?, ch ≠ slash)
    (hempty : b = [] → h = []) (hh : ∀ ch ∈ h.getLast?, ch = slash) : basename p = .ok b := by
  have hend := @end_ok 0 (h ++ b) k (fun hpos ch hch => by
    by_cases hnil : b = []
    · rw [hnil, hempty hnil] at hpos
      exact absurd hpos (Nat.lt_irrefl 0)
    · rw [List.getLast?_append_of_ne_nil _ hnil] at hch
      exact hlast ch hch) (Or.inl (Nat.zero_le _))
  have hslice : ((h ++ b ++ List.replicate k slash).take (h ++ b).length).drop h.length = b := by
    rw [List.take_left, List.drop_left]
  rw [basename, basenameValue, normalizePath_ok, ok_bind, isDriveRoot_ok, ok_bind, norm_norm, hdrive,
    if_neg Bool.false_ne_true, hnorm, hend, ok_bind, start_ok hb hh k, ok_bind, slice_ok ?_ ?_, hslice]
  · rw [List.length_append]
    exact Nat.le_add_right _ _
  · rw [@List.length_append _ (h ++ b)]
    exact Nat.le_add_right _ _

/-- **What `basename` returns.** -/
theorem basename_ok {dir base : Bytes} (h : Parts (norm p) dir base) : basename p = .ok base := by
  generalize hn : norm p = n at h
  cases h with
  | empty =>
      refine @basename_cut p [] [] 0 hn ?_ List.not_mem_nil (fun _ h => by cases h) (fun _ => rfl) fun _ h => by cases h
      rw [hn]
      rfl
  | root k =>
      refine @basename_cut p [] [] (k + 1) hn ?_ List.not_mem_nil (fun _ h => by cases h) (fun _ => rfl) fun _ h => by cases h
      rw [hn]
      exact not_driveRoots_replicate _
  | drive x k =>
      have hdrive : driveRoots (x :: colon :: List.replicate (k + 1) slash) = true := (driveRoots_iff _).mpr ⟨x, k, rfl⟩
      rw [basename, basenameValue, normalizePath_ok, ok_bind, isDriveRoot_ok, ok_bind, norm_norm, hn, hdrive, if_pos rfl]
      rfl
  | plain k hb hdrive =>
      refine @basename_cut p base [] k hn ?_ hb.2 hb.last (fun h => absurd h hb.1) fun _ h => by cases h
      rw [hn]
      exact hdrive
  | @under d _ k hb hdrive =>
      refine @basename_cut p base (d ++ [slash]) k ?_ ?_ hb.2 hb.last (fun h => absurd h hb.1) ?_
      · rw [hn, List.append_assoc d [slash] base]
        rfl
      · rw [hn]
        exact hdrive
      · intro ch hch
        rw [List.getLast?_concat] at hch
        exact (Option.some.inj hch).symm

/-- The directory is what stands in front of the last slash. -/
theorem dirname_cut {t : Bytes} {k : ℕ} (hnorm : norm p = t ++ List.replicate k slash) (hdrive : driveRoots (norm p) = false)
    (hlast : 1 < t.length → ∀ ch ∈ t.getLast?, ch ≠ slash) (hleast : 1 ≤ t.length ∨ k = 0) {separator : Int}
    (hseparator : lastPlace (norm p) t.length slash = .ok separator) : dirname p = dirnameFrom (norm p) separator := by
  have hend := @end_ok 1 t k hlast hleast
  rw [← hnorm] at hend
  rw [dirname, dirnameValue, normalizePath_ok, ok_bind, isDriveRoot_ok, ok_bind, norm_norm, hdrive,
    if_neg Bool.false_ne_true, hend, ok_bind, hseparator, ok_bind]

theorem dirnameFrom_ok (d rest : Bytes) : dirnameFrom (d ++ slash :: rest) d.length = .ok (parentOf d) := by
  unfold dirnameFrom parentOf
  by_cases hempty : d = []
  · subst hempty
    rfl
  have hpos := List.length_pos_of_ne_nil hempty
  have hnone : ¬(d.length : Int) = -1 := by omega
  have hzero : ¬(d.length : Int) = 0 := by omega
  rw [if_neg hnone, if_neg hzero, if_neg hempty]
  have hslice : slice (d ++ slash :: rest) 0 d.length = .ok d := by
    rw [slice_ok (Nat.zero_le _) (by rw [List.length_append]; exact Nat.le_add_right _ _), List.take_left]
    rfl
  by_cases htwo : d.length = 2
  · obtain ⟨x, y, rfl⟩ := List.length_eq_two.mp htwo
    have hseparator : driveSeparator ([x, y] ++ slash :: rest) (([x, y] : Bytes).length : Int) = .ok (decide (y = colon)) := by
      have hlong : (([x, y] : Bytes).length : Int) = 2 ∧ ([x, y] ++ slash :: rest).length ≥ 3 :=
        ⟨rfl, Nat.le_add_left 3 rest.length⟩
      exact if_pos hlong
    rw [hseparator, ok_bind]
    by_cases hcolon : y = colon
    · rw [decide_eq_true hcolon, if_pos rfl, if_pos ⟨rfl, congrArg some hcolon⟩]
      rfl
    · rw [decide_eq_false hcolon, if_neg Bool.false_ne_true, if_neg fun h => hcolon (Option.some.inj h.2)]
      exact hslice
  · have hseparator : driveSeparator (d ++ slash :: rest) d.length = .ok false := if_neg fun h => htwo (by omega)
    rw [hseparator, ok_bind, if_neg Bool.false_ne_true, if_neg fun h => htwo h.1, Int.toNat_natCast]
    exact hslice

/-- **What `dirname` returns.** -/
theorem dirname_ok {dir base : Bytes} (h : Parts (norm p) dir base) : dirname p = .ok dir := by
  generalize hn : norm p = n at h
  cases h with
  | empty =>
      have hnone : lastPlace (norm p) ([] : Bytes).length slash = .ok (-1) := by
        rw [hn]
        exact @lastPlace_none slash [] [] List.not_mem_nil
      rw [@dirname_cut p [] 0 hn (by rw [hn]; rfl) (fun h => absurd h (by decide)) (Or.inr rfl) _ hnone]
      rfl
  | root k =>
      have hsplit : norm p = [slash] ++ List.replicate k slash := hn
      have hfirst : lastPlace (norm p) ([slash] : Bytes).length slash = .ok (([] : Bytes).length : Int) := by
        rw [hsplit]
        exact @lastPlace_ok [] slash [] _ List.not_mem_nil
      rw [dirname_cut hsplit (by rw [hn]; exact not_driveRoots_replicate _) (fun h => absurd h (by decide))
        (Or.inl (Nat.le_refl 1)) hfirst]
      rfl
  | drive x k =>
      have hdrive : driveRoots (x :: colon :: List.replicate (k + 1) slash) = true := (driveRoots_iff _).mpr ⟨x, k, rfl⟩
      rw [dirname, dirnameValue, normalizePath_ok, ok_bind, isDriveRoot_ok, ok_bind, norm_norm, hn, hdrive, if_pos rfl]
      exact @driveRootValue_ok _ x (k + 1) (by rw [← hn, norm_norm])
  | plain k hb hdrive =>
      have hnone : lastPlace (norm p) base.length slash = .ok (-1) := by
        rw [hn]
        exact lastPlace_none hb.2
      rw [dirname_cut hn (by rw [hn]; exact hdrive) (fun _ => hb.last) (Or.inl (List.length_pos_of_ne_nil hb.1)) hnone]
      rfl
  | @under d _ k hb hdrive =>
      have hplace : lastPlace (norm p) (d ++ slash :: base).length slash = .ok (d.length : Int) := by
        rw [hn]
        exact lastPlace_ok hb.2
      have hlast : ∀ ch ∈ (d ++ slash :: base).getLast?, ch ≠ slash := by
        intro ch hch
        have hsplit : d ++ slash :: base = (d ++ [slash]) ++ base := by
          rw [List.append_assoc]
          rfl
        rw [hsplit, List.getLast?_append_of_ne_nil _ hb.1] at hch
        exact hb.last ch hch
      have hpos : 1 ≤ (d ++ slash :: base).length := by
        rw [List.length_append, List.length_cons]
        omega
      rw [dirname_cut hn (by rw [hn]; exact hdrive) (fun _ => hlast) (Or.inl hpos) hplace, hn, List.append_assoc]
      exact dirnameFrom_ok d _

end Vnt.StdLib.Path
