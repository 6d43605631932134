import Vnt.StdLib.Path

/-!
# `StdLib.PathLaws` — taking paths apart and putting them together

`join` of what `dirname` and `basename` return names the same path, and `change_extension` exchanges the extension and nothing
else. Both are shown on the parts of a path.
-/

namespace Vnt.StdLib.Path

open Lib (Turn)
open Net (Bytes ascii)

variable {p n s b d dir base name e st : Bytes} {c x : UInt8} {i k stop : Nat}

/-! ## What a path names -/

/-- The components between the slashes that say something. -/
def comps (n : Bytes) : List Bytes := (n.splitOnP fun ch => ch = slash).filter fun c => c ≠ [] ∧ c ≠ [dot]

def components (p : Bytes) : List Bytes := comps (norm p)

def absolutes (n : Bytes) : Bool := n.head? = some slash || driveStarts n

theorem isAbsolute_ok (p : Bytes) : isAbsolute p = .ok (absolutes (norm p)) := by
  rw [isAbsolute, normalizePath_ok, ok_bind]
  cases norm p with
  | nil => rfl
  | cons first rest =>
      have hget : stringGet (first :: rest) 0 = .ok first := rfl
      have hlong : ¬(first :: rest).length = 0 := Nat.succ_ne_zero _
      rw [if_neg hlong, hget, ok_bind]
      by_cases hfirst : first = slash
      · have hhead : decide ((first :: rest).head? = some slash) = true := decide_eq_true (congrArg some hfirst)
        rw [if_pos hfirst, absolutes, hhead]
        rfl
      · have hhead : decide ((first :: rest).head? = some slash) = false :=
          decide_eq_false fun h => hfirst (Option.some.inj h)
        rw [if_neg hfirst, driveStart_ok, absolutes, hhead]
        rfl

theorem comps_append (a b : Bytes) : comps (a ++ slash :: b) = comps a ++ comps b := by
  have hsplit : (a ++ slash :: b).splitOnP (fun ch => ch = slash) =
      a.splitOnP (fun ch => ch = slash) ++ b.splitOnP fun ch => ch = slash :=
    List.splitOnP_append_cons a b (decide_eq_true rfl)
  rw [comps, hsplit, List.filter_append]
  rfl

theorem comps_replicate (k : ℕ) : comps (List.replicate k slash) = [] := by
  induction k with
  | zero => rfl
  | succ k ih =>
      have hsplit : List.replicate (k + 1) slash = [] ++ slash :: List.replicate k slash := rfl
      rw [hsplit, comps_append, ih]
      rfl

/-- Slashes at the end do not count. -/
theorem comps_slashes (n : Bytes) (k : ℕ) : comps (n ++ List.replicate k slash) = comps n := by
  cases k with
  | zero => rw [List.replicate_zero, List.append_nil]
  | succ k => rw [List.replicate_succ, comps_append, comps_replicate, List.append_nil]

/-- Whether a path is absolute is seen from its first three characters. -/
theorem absolutes_append (h : 3 ≤ n.length) (s : Bytes) : absolutes (n ++ s) = absolutes n := by
  match n, h with
  | _ :: _ :: _ :: _, _ => rfl

/-- What stands behind a slash does not count either. -/
theorem absolutes_slash (front rest rest' : Bytes) : absolutes (front ++ slash :: rest) = absolutes (front ++ slash :: rest') := by
  match front with
  | [] => rfl
  | [x] =>
      have hsecond : ∀ rest : Bytes, driveStarts (x :: slash :: rest) = false := by
        intro rest
        cases rest <;> rfl
      unfold absolutes
      show (_ || driveStarts (x :: slash :: rest)) = (_ || driveStarts (x :: slash :: rest'))
      rw [hsecond, hsecond]
      rfl
  | [_, _] => rfl
  | _ :: _ :: _ :: _ => rfl

/-! ## `join` -/

theorem backslash_parts (h : Parts n dir base) (hn : backslash ∉ n) : backslash ∉ dir ∧ backslash ∉ base := by
  cases h with
  | empty => exact ⟨by decide, List.not_mem_nil⟩
  | root k => exact ⟨by decide, List.not_mem_nil⟩
  | drive x k =>
      refine ⟨fun hmem => hn ?_, List.not_mem_nil⟩
      rcases List.mem_cons.mp hmem with rfl | hmem
      · exact List.mem_cons_self
      · exact absurd hmem (by decide)
  | plain k hb hdrive => exact ⟨by decide, fun hmem => hn (List.mem_append_left _ hmem)⟩
  | @under d _ k hb hdrive =>
      constructor
      · intro hmem
        unfold parentOf at hmem
        split_ifs at hmem with hempty hcolon
        · exact absurd hmem (by decide)
        · rcases List.mem_append.mp hmem with hmem | hmem
          · exact hn (List.mem_append_left _ (List.mem_append_left _ hmem))
          · exact absurd hmem (by decide)
        · exact hn (List.mem_append_left _ (List.mem_append_left _ hmem))
      · exact fun hmem => hn (List.mem_append_left _ (List.mem_append_right _ (List.mem_cons_of_mem _ hmem)))

theorem not_driveStarts (h : slash ∉ n) : driveStarts n = false := by
  match n with
  | [] => rfl
  | [_] => rfl
  | [_, _] => rfl
  | _ :: second :: third :: rest =>
      rw [driveStarts, @decide_eq_false (third = slash) _ fun heq => h (by rw [heq]; simp), Bool.and_false]

/-- A name is put behind a path, with a slash in between unless there is one. -/
theorem join_name (hb : IsName b) (hbslash : backslash ∉ b) (hd : d ≠ []) (hdslash : backslash ∉ d) :
    join d b = .ok (if d.getLast hd = slash then d ++ b else d ++ [slash] ++ b) := by
  have hblong : ¬b.length = 0 := fun h => hb.1 (List.length_eq_zero_iff.mp h)
  have hdlong : ¬d.length = 0 := fun h => hd (List.length_eq_zero_iff.mp h)
  obtain ⟨first, rest, rfl⟩ := List.exists_cons_of_ne_nil hb.1
  have hfirst : ¬first = slash := fun h => hb.2 (by rw [h]; exact List.mem_cons_self)
  have hget : stringGet (first :: rest) 0 = .ok first := rfl
  rw [join, if_neg hblong, if_neg hdlong, normalizePath_ok, ok_bind, normalizePath_ok, ok_bind, norm_eq hdslash,
    norm_eq hbslash, hget, ok_bind, if_neg hfirst, driveStart_ok, ok_bind, not_driveStarts hb.2, if_neg Bool.false_ne_true,
    joinNormal, stringGet_last hd, ok_bind]
  by_cases h : d.getLast hd = slash
  · rw [if_pos h, if_pos h]
    rfl
  · rw [if_neg h, if_neg h]
    rfl

theorem comps_dot : comps [dot] = [] := by decide

/-- A single name is absolute only as the root of a drive. -/
theorem not_absolutes (hb : IsName b) (hdrive : driveRoots (b ++ List.replicate k slash) = false) :
    absolutes (b ++ List.replicate k slash) = false := by
  rw [Bool.eq_false_iff]
  intro h
  rcases Bool.or_eq_true_iff.mp h with h | h
  · have hhead := of_decide_eq_true h
    obtain ⟨first, rest, rfl⟩ := List.exists_cons_of_ne_nil hb.1
    exact hb.2 (Option.some.inj hhead ▸ List.mem_cons_self)
  · -- A drive of two characters has only slashes behind it, and a longer name has no slash.
    match b, hb with
    | [first], hb =>
        cases k with
        | zero => cases h
        | succ k =>
            cases k with
            | zero => cases h
            | succ k =>
                have hslash : (decide (slash = colon) && decide (slash = slash)) = true := h
                exact absurd hslash (by decide)
    | [first, second], hb =>
        cases k with
        | zero => cases h
        | succ k =>
            have hcolon : second = colon := of_decide_eq_true (Bool.and_eq_true_iff.mp h).1
            have hroot : driveRoots ([first, second] ++ List.replicate (k + 1) slash) = true :=
              (driveRoots_iff _).mpr ⟨first, k, by rw [hcolon]; rfl⟩
            exact absurd (hdrive.symm.trans hroot) (by decide)
    | first :: second :: third :: rest, hb =>
        have hthird : third = slash := of_decide_eq_true (Bool.and_eq_true_iff.mp h).2
        exact hb.2 (by rw [hthird]; simp)

theorem parentOf_ne_nil (d : Bytes) : parentOf d ≠ [] := by
  unfold parentOf
  split_ifs with hempty
  · exact List.cons_ne_nil _ _
  · exact List.append_ne_nil_of_right_ne_nil _ (List.cons_ne_nil _ _)
  · exact hempty

/-- **The same path.** -/
theorem join_parts (h : Parts n dir base) (hn : backslash ∉ n) :
    ∃ q, join dir base = .ok q ∧ norm q = q ∧ absolutes q = absolutes n ∧ comps q = comps n := by
  obtain ⟨hdir, hbase⟩ := backslash_parts h hn
  have hempty : ∀ left, backslash ∉ left → join left [] = .ok left := by
    intro left hleft
    have hjoin : join left [] = normalizePath left := rfl
    rw [hjoin, normalizePath_ok, norm_eq hleft]
  cases h with
  | empty => exact ⟨[dot], hempty _ hdir, norm_eq hdir, by decide, by decide⟩
  | root k =>
      refine ⟨[slash], hempty _ hdir, norm_eq hdir, rfl, ?_⟩
      rw [comps_replicate]
      decide
  | drive x k =>
      refine ⟨[x, colon, slash], hempty _ hdir, norm_eq hdir, ?_, ?_⟩
      · cases k with
        | zero => rfl
        | succ k => exact (@absolutes_append [x, colon, slash] (Nat.le_refl 3) (List.replicate (k + 1) slash)).symm
      · exact (comps_slashes [x, colon] 1).trans (comps_slashes [x, colon] (k + 1)).symm
  | plain k hb hdrive =>
      have hjoin := join_name hb hbase (List.cons_ne_nil dot []) hdir
      rw [if_neg (by decide)] at hjoin
      refine ⟨_, hjoin, norm_eq ?_, ?_, ?_⟩
      · intro hmem
        rcases List.mem_append.mp hmem with hmem | hmem
        · exact absurd hmem (by decide)
        · exact hbase hmem
      · rw [not_absolutes hb hdrive]
        obtain ⟨first, rest, rfl⟩ := List.exists_cons_of_ne_nil hb.1
        rfl
      · rw [comps_slashes, List.append_assoc]
        exact (comps_append [dot] base).trans (by rw [comps_dot, List.nil_append])
  | @under d _ k hb hdrive =>
      have hwhole : comps (d ++ slash :: base ++ List.replicate k slash) = comps d ++ comps base := by
        rw [comps_slashes, comps_append]
      have hdir_ne := parentOf_ne_nil d
      have hjoin := join_name hb hbase hdir_ne hdir
      have hclean : ∀ left, backslash ∉ left → backslash ∉ left ++ base := fun left hleft hmem =>
        (List.mem_append.mp hmem).elim hleft hbase
      rw [hwhole]
      by_cases hnone : d = []
      · subst hnone
        exact ⟨_, hjoin, norm_eq (hclean _ hdir), rfl, comps_append [] base⟩
      by_cases hcolon : d.length = 2 ∧ d[1]? = some colon
      · obtain ⟨x, y, rfl⟩ := List.length_eq_two.mp hcolon.1
        obtain rfl : y = colon := Option.some.inj hcolon.2
        exact ⟨_, hjoin, norm_eq (hclean _ hdir), rfl, comps_append [x, colon] base⟩
      have hparent : parentOf d = d := by rw [parentOf, if_neg hnone, if_neg hcolon]
      by_cases hlast : d.getLast hnone = slash
      · -- Several slashes in front of the name: `dirname` leaves all but the last.
        obtain ⟨front, hfront⟩ : ∃ front, d = front ++ [slash] := ⟨d.dropLast, by rw [← hlast, List.dropLast_concat_getLast]⟩
        refine ⟨d ++ base, ?_, norm_eq (hclean d (hparent ▸ hdir)), ?_, ?_⟩
        · simp only [hparent] at hjoin ⊢
          rw [if_pos hlast] at hjoin
          exact hjoin
        · have hsplit : d ++ slash :: base ++ List.replicate k slash =
              front ++ slash :: (slash :: base ++ List.replicate k slash) := by
            rw [hfront, List.append_assoc, List.append_assoc]
            rfl
          rw [hsplit, hfront, List.append_assoc]
          exact absolutes_slash front _ _
        · have hcut : comps d = comps front := by
            rw [hfront]
            exact comps_slashes front 1
          rw [hcut, hfront, List.append_assoc]
          exact comps_append front base
      · refine ⟨d ++ [slash] ++ base, ?_, norm_eq ?_, ?_, ?_⟩
        · simp only [hparent] at hjoin ⊢
          rw [if_neg hlast] at hjoin
          exact hjoin
        · apply hclean
          intro hmem
          rcases List.mem_append.mp hmem with hmem | hmem
          · exact (hparent ▸ hdir) hmem
          · exact absurd hmem (by decide)
        · have hlong : 3 ≤ (d ++ slash :: base).length := by
            have hdpos := List.length_pos_of_ne_nil hnone
            have hbpos := List.length_pos_of_ne_nil hb.1
            rw [List.length_append, List.length_cons]
            omega
          rw [absolutes_append hlong, List.append_assoc]
          rfl
        · rw [List.append_assoc]
          exact comps_append d base

/-! ## `change_extension` -/

/-- A name without its extension: without the part from its last dot, if that dot is not the first character. -/
inductive Stem : Bytes → Bytes → Prop
  | cut {st tail : Bytes} (hst : st ≠ []) (htail : dot ∉ tail) : Stem (st ++ dot :: tail) st
  | whole {b : Bytes} (hb : dot ∉ b.tail) : Stem b b

theorem stemName_ok (b : Bytes) :
    ∃ place st, lastPlace b b.length dot = .ok place ∧ stemName b place = .ok st ∧ Stem b st := by
  by_cases hdot : dot ∈ b
  · obtain ⟨st, tail, rfl, htail⟩ := exists_last hdot
    have hplace := @lastPlace_ok tail dot st [] htail
    rw [List.append_nil] at hplace
    by_cases hst : st = []
    · subst hst
      exact ⟨_, _, hplace, rfl, .whole htail⟩
    · have hpos : (st.length : Int) > 0 := by
        have hlong := List.length_pos_of_ne_nil hst
        omega
      refine ⟨_, st, hplace, ?_, .cut hst htail⟩
      rw [stemName, if_pos hpos, Int.toNat_natCast,
        slice_ok (Nat.zero_le _) (by rw [List.length_append]; exact Nat.le_add_right _ _), List.take_left]
      rfl
  · have hplace := @lastPlace_none dot b [] hdot
    rw [List.append_nil] at hplace
    exact ⟨_, b, hplace, rfl, .whole fun h => hdot (List.mem_of_mem_tail h)⟩

theorem Stem.ne_nil (h : Stem b st) (hb : b ≠ []) : st ≠ [] := by
  cases h with
  | cut hst htail => exact hst
  | whole => exact hb

theorem Stem.subset (h : Stem b st) : st ⊆ b := by
  cases h with
  | cut hst htail => exact List.subset_append_left _ _
  | whole => exact List.Subset.refl _

/-- The extension stands behind the last dot. -/
theorem extension_ok (hst : st ≠ []) (he : dot ∉ e) (h : basename p = .ok (st ++ dot :: e)) : extension p = .ok e := by
  have hplace := @lastPlace_ok e dot st [] he
  rw [List.append_nil] at hplace
  have hpos : ¬(st.length : Int) ≤ 0 := by
    have hlong := List.length_pos_of_ne_nil hst
    omega
  have hname : basenameValue p = .ok (st ++ dot :: e) := h
  have hlong : st.length + 1 ≤ (st ++ dot :: e).length := by
    rw [List.length_append, List.length_cons]
    omega
  have hslice : (st ++ dot :: e).drop (st.length + 1) = e := by
    rw [← List.drop_drop, List.drop_left]
    rfl
  rw [extension, extensionValue, hname, ok_bind, hplace, ok_bind, if_neg hpos, Int.toNat_natCast,
    slice_ok hlong (Nat.le_refl _), List.take_length, hslice]

/-- A parent that ends in its slash. -/
def rootParent (dir : Bytes) : Bool := dir = [slash] || (dir.length = 3 && driveStarts dir)

/-- A name behind its parent, as `change_extension` puts it there. -/
def attach (dir name : Bytes) : Bytes :=
  if dir = [dot] then name else if rootParent dir then dir ++ name else dir ++ [slash] ++ name

theorem isRootParent_ok (dir : Bytes) : isRootParent dir = .ok (rootParent dir) := by
  unfold isRootParent rootParent
  by_cases hslash : dir = [slash]
  · have hascii : dir = ascii "/" := hslash
    rw [if_pos hascii, decide_eq_true hslash]
    rfl
  · have hascii : ¬dir = ascii "/" := hslash
    rw [if_neg hascii, decide_eq_false hslash]
    by_cases hthree : dir.length = 3
    · rw [if_pos hthree, driveStart_ok, decide_eq_true hthree]
      rfl
    · rw [if_neg hthree, decide_eq_false hthree]
      rfl

theorem changeExtension_ok (h : Parts (norm p) dir b) (he : e ≠ []) (hdot : dot ∉ e) :
    ∃ st, Stem b st ∧ changeExtension p e = .ok (attach dir (st ++ dot :: e)) := by
  obtain ⟨place, st, hplace, hstem, hst⟩ := stemName_ok b
  refine ⟨st, hst, ?_⟩
  have hparts : Parts (norm (norm p)) dir b := by rwa [norm_norm]
  have hbase : basenameValue (norm p) = .ok b := basename_ok hparts
  have hdir : dirnameValue (norm p) = .ok dir := dirname_ok hparts
  have hclean : cleanExtension e = .ok (dot :: e) := by
    obtain ⟨first, rest, rfl⟩ := List.exists_cons_of_ne_nil he
    have hfirst : first ≠ dot := fun heq => hdot (by rw [heq]; exact List.mem_cons_self)
    have hpos : (first :: rest).length > 0 := Nat.succ_pos _
    have hget : stringGet (first :: rest) 0 = .ok first := rfl
    rw [cleanExtension, if_pos hpos, hget, ok_bind, if_pos hfirst]
    rfl
  rw [changeExtension, normalizePath_ok, ok_bind, hbase, ok_bind, hdir, ok_bind, hplace, ok_bind, hstem, ok_bind, hclean,
    ok_bind]
  unfold attach
  by_cases hhere : dir = [dot]
  · have hascii : dir = ascii "." := hhere
    rw [if_pos hascii, if_pos hhere]
    rfl
  · have hascii : ¬dir = ascii "." := hhere
    rw [if_neg hascii, if_neg hhere, isRootParent_ok, ok_bind]
    cases rootParent dir <;> rfl

theorem not_driveRoots_name (h : Bytes) (hname : IsName name) : driveRoots (h ++ name) = false := by
  rw [Bool.eq_false_iff]
  intro hroot
  obtain ⟨x, k, heq⟩ := (driveRoots_iff _).mp hroot
  have hlast := congrArg List.getLast? heq
  rw [List.getLast?_append_of_ne_nil _ hname.1, List.replicate_succ'] at hlast
  have hslash : name.getLast? = some slash := by
    rw [hlast]
    exact List.getLast?_concat (l := x :: colon :: List.replicate k slash)
  exact hname.last slash hslash rfl

theorem parts_plain (hname : IsName name) : Parts name [dot] name := by
  have h := Parts.plain 0 hname (by rw [List.replicate_zero, List.append_nil]; exact not_driveRoots_name [] hname)
  rwa [List.replicate_zero, List.append_nil] at h

theorem parts_under (d : Bytes) (hname : IsName name) : Parts (d ++ slash :: name) (parentOf d) name := by
  have hdrive : driveRoots (d ++ slash :: name) = false := by
    have hsplit : d ++ slash :: name = (d ++ [slash]) ++ name := by
      rw [List.append_assoc]
      rfl
    rw [hsplit]
    exact not_driveRoots_name _ hname
  have h := Parts.under 0 hname (by rw [List.replicate_zero, List.append_nil]; exact hdrive)
  rwa [List.replicate_zero, List.append_nil] at h

/-- A name put behind the parent of another one has that parent. -/
theorem parts_attach (h : Parts n dir b) (hb : b ≠ []) (hname : IsName name) : Parts (attach dir name) dir name := by
  have hsub : ∀ d, d ≠ [] → ¬(d.length = 2 ∧ d[1]? = some colon) → Parts (attach d name) d name := by
    intro d hd hcolon
    have hparent : parentOf d = d := by rw [parentOf, if_neg hd, if_neg hcolon]
    unfold attach
    by_cases hhere : d = [dot]
    · rw [if_pos hhere, hhere]
      exact parts_plain hname
    rw [if_neg hhere]
    by_cases hroot : rootParent d = true
    · rw [if_pos hroot]
      rcases Bool.or_eq_true_iff.mp hroot with hslash | hdrive
      · rw [of_decide_eq_true hslash]
        exact parts_under [] hname
      · -- The parent is a drive with its slash: so is the parent of what stands behind the drive.
        obtain ⟨hthree, hstart⟩ := Bool.and_eq_true_iff.mp hdrive
        obtain ⟨x, y, z, rfl⟩ := List.length_eq_three.mp (of_decide_eq_true hthree)
        obtain ⟨hy, hz⟩ := Bool.and_eq_true_iff.mp hstart
        obtain rfl : y = colon := of_decide_eq_true hy
        obtain rfl : z = slash := of_decide_eq_true hz
        exact parts_under [x, colon] hname
    · have hunder := parts_under d hname
      rw [if_neg hroot, List.append_assoc]
      rw [hparent] at hunder
      exact hunder
  cases h with
  | empty => exact absurd rfl hb
  | root k => exact absurd rfl hb
  | drive x k => exact absurd rfl hb
  | plain k hbname hdrive => exact parts_plain hname
  | @under d _ k hbname hdrive =>
      by_cases hnone : d = []
      · subst hnone
        exact parts_under [] hname
      by_cases hcolon : d.length = 2 ∧ d[1]? = some colon
      · obtain ⟨x, y, rfl⟩ := List.length_eq_two.mp hcolon.1
        obtain rfl : y = colon := Option.some.inj hcolon.2
        have hparent : parentOf [x, colon] = [x, colon, slash] := rfl
        have hhere : ¬[x, colon, slash] = [dot] := fun heq => List.cons_ne_nil _ _ (List.cons.inj heq).2
        have hroot : rootParent [x, colon, slash] = true := Bool.or_eq_true_iff.mpr (Or.inr rfl)
        have hunder := parts_under [x, colon] hname
        rw [hparent] at hunder ⊢
        rw [attach, if_neg hhere, if_pos hroot]
        exact hunder
      · have hparent : parentOf d = d := by rw [parentOf, if_neg hnone, if_neg hcolon]
        rw [hparent]
        exact hsub d hnone hcolon

theorem backslash_attach (hdir : backslash ∉ dir) (hname : backslash ∉ name) : backslash ∉ attach dir name := by
  unfold attach
  split_ifs
  · exact hname
  · exact fun hmem => (List.mem_append.mp hmem).elim hdir hname
  · intro hmem
    rcases List.mem_append.mp hmem with hmem | hmem
    · rcases List.mem_append.mp hmem with hmem | hmem
      · exact hdir hmem
      · exact absurd hmem (by decide)
    · exact hname hmem

theorem slash_parts (h : Parts n dir b) : slash ∉ b := by
  cases h with
  | empty => exact List.not_mem_nil
  | root k => exact List.not_mem_nil
  | drive x k => exact List.not_mem_nil
  | plain k hb hdrive => exact hb.2
  | under k hb hdrive => exact hb.2

/-! ## The laws -/

/-- **The laws of paths.** On every path the functions return. Joining the directory and the base name gives a path that is
absolute if the path is, with the same components. Where there is a base name, exchanging its extension for one without dots and
separators gives a path with this extension in the same directory; the base name is the stem, a dot and the extension. -/
theorem path_laws (p : Bytes) :
    (∃ dir base q a, dirname p = .ok dir ∧ basename p = .ok base ∧ join dir base = .ok q ∧ isAbsolute p = .ok a ∧
      isAbsolute q = .ok a ∧ components q = components p) ∧
    ∀ base, basename p = .ok base → base ≠ [] → ∀ e, e ≠ [] → dot ∉ e → slash ∉ e → backslash ∉ e →
      ∃ q dir st, changeExtension p e = .ok q ∧ extension q = .ok e ∧ dirname p = .ok dir ∧ dirname q = .ok dir ∧
        Stem base st ∧ basename q = .ok (st ++ dot :: e) := by
  obtain ⟨dir, base, hparts⟩ := parts_exist (norm p)
  have hclean := backslash_norm p
  constructor
  · obtain ⟨q, hjoin, hnorm, habsolute, hcomps⟩ := join_parts hparts hclean
    refine ⟨dir, base, q, absolutes (norm p), dirname_ok hparts, basename_ok hparts, hjoin, isAbsolute_ok p, ?_, ?_⟩
    · rw [isAbsolute_ok, hnorm, habsolute]
    · rw [components, hnorm, hcomps]
      rfl
  · intro base' hbase' hne e he hdot hslash hbackslash
    obtain rfl : base = base' := Except.ok.inj ((basename_ok hparts).symm.trans hbase')
    obtain ⟨st, hst, hchange⟩ := changeExtension_ok hparts he hdot
    obtain ⟨hdir, hbase⟩ := backslash_parts hparts hclean
    have hmem : ∀ ch, ch ≠ dot → ch ∉ base → ch ∉ e → ch ∉ st ++ dot :: e := by
      intro ch hch hbase he hmem
      rcases List.mem_append.mp hmem with hmem | hmem
      · exact hbase (hst.subset hmem)
      · exact (List.mem_cons.mp hmem).elim hch he
    have hname : IsName (st ++ dot :: e) :=
      ⟨List.append_ne_nil_of_right_ne_nil _ (List.cons_ne_nil _ _), hmem slash (by decide) (slash_parts hparts) hslash⟩
    have hnorm := norm_eq (backslash_attach hdir (hmem backslash (by decide) hbase hbackslash))
    have hq : Parts (norm (attach dir (st ++ dot :: e))) dir (st ++ dot :: e) := by
      rw [hnorm]
      exact parts_attach hparts hne hname
    exact ⟨_, dir, st, hchange, extension_ok (hst.ne_nil hne) hdot (basename_ok hq), dirname_ok hparts, dirname_ok hq, hst,
      basename_ok hq⟩

/-- The backup of `C:\src\a.vnt`. -/
theorem path_laws_backup : ∃ q dir st, changeExtension (ascii "C:\\src\\a.vnt") (ascii "bak") = .ok q ∧
    extension q = .ok (ascii "bak") ∧ dirname (ascii "C:\\src\\a.vnt") = .ok dir ∧ dirname q = .ok dir ∧
    Stem (ascii "a.vnt") st ∧ basename q = .ok (st ++ dot :: ascii "bak") :=
  (path_laws (ascii "C:\\src\\a.vnt")).2 (ascii "a.vnt") (by rfl) (by decide) (ascii "bak") (by decide) (by decide)
    (by decide) (by decide)

end Vnt.StdLib.Path
