import Vnt.Os.ShellEditing

/-!
# `Os.ShellKeys` — what each key does to a calm frame

`Edits d e`: the desk shows the editor. A line of sixteen characters still fits, with its terminator in the lowest byte of
the insertion's `shift_index`, and so does a saved line of sixteen. A key that writes a terminator leaves one behind; every
other key leaves the terminator that there was.
-/

namespace Vnt.Os

open Lib

variable {f : Frame} {s t : ShellState} {d : Desk} {e : Editor} {x : Local} {v : Int} {c : UInt8} {a b k n : Nat}

/-- The desk shows the editor. -/
structure Edits (d : Desk) (e : Editor) : Prop where
  length : d.locals .length = e.line.length
  cursor : d.locals .cursor = e.cursor
  text : ∀ (i : Nat) c, e.line[i]? = some c → d.text i = c
  short : e.line.length ≤ 16
  full : e.line.length = 16 → d.locals .insertShift % 256 = 0
  /-- Before the first key the byte may be anything. -/
  terminated : e.line ≠ [] → d.text e.line.length = 0
  historyLength : d.slots 178 = e.history.length
  history : ∀ (i : Nat) c, e.history[i]? = some c → d.slots (180 + i) = c.toNat
  historyShort : e.history.length ≤ 16

/-- A calm frame that shows the editor, terminator included. -/
def Shown (f : Frame) (e : Editor) (t : ShellState) : Prop :=
  ∃ d, Calm f t d ∧ Edits d e ∧ d.text e.line.length = 0

theorem Edits.setLocal (h : Edits d e) (v : Int) (hlength : x ≠ .length) (hcursor : x ≠ .cursor)
    (hinsert : x ≠ .insertShift) : Edits (d.setLocal x v) e where
  length := by
    rw [Desk.setLocal_ne d v (Ne.symm hlength)]
    exact h.length
  cursor := by
    rw [Desk.setLocal_ne d v (Ne.symm hcursor)]
    exact h.cursor
  text := h.text
  short := h.short
  full := by
    rw [Desk.setLocal_ne d v (Ne.symm hinsert)]
    exact h.full
  terminated := h.terminated
  historyLength := h.historyLength
  history := h.history
  historyShort := h.historyShort

/-- The cursor moves, and nothing else. -/
theorem Edits.moveTo (h : Edits d e) {cursor : Nat} (hle : cursor ≤ e.line.length) :
    Edits (d.setLocal .cursor cursor) (e.moveTo cursor hle) where
  length := by
    rw [Desk.setLocal_ne d _ (by decide)]
    exact h.length
  cursor := Desk.setLocal_self d .cursor cursor
  text := h.text
  short := h.short
  full := by
    rw [Desk.setLocal_ne d _ (by decide)]
    exact h.full
  terminated := h.terminated
  historyLength := h.historyLength
  history := h.history
  historyShort := h.historyShort

/-- A line with a terminator can be read as far as the terminator. -/
theorem Edits.shows (h : Edits d e) (hend : d.text e.line.length = 0) : d.Shows e.line.length := by
  by_cases hfull : e.line.length = 16
  · refine Or.inr ⟨hfull, h.full hfull, ?_⟩
    rw [← hfull]
    exact hend
  · have hshort := h.short
    exact Or.inl (by omega)

theorem Edits.cursor_small (h : Edits d e) : e.cursor ≤ 16 := Nat.le_trans e.cursor_le h.short

/-! ## Keys that move the cursor -/

theorem leftKey_shown (h : Calm f s d) (he : Edits d e) (hend : d.text e.line.length = 0) :
    Prog.Sat (leftKey f) s fun _ t => Shown f (e.press .left) t := by
  have hcursor := he.cursor_small
  unfold leftKey
  apply Prog.Sat.step (getLocal_run h .cursor)
  rw [he.cursor]
  apply Prog.Sat.ite
  · intro hpos
    have hstep : (e.cursor : Int) + (-1) = ((e.cursor - 1 : Nat) : Int) := by omega
    have hword : InWord (d.locals .cursor + (-1)) := by
      rw [he.cursor]
      exact small_word (by omega) (by omega)
    apply Prog.Sat.mono (addLocal_calm h (by decide) (-1) hword)
    intro _ t ht
    rw [he.cursor, hstep] at ht
    exact ⟨_, ht, he.moveTo _, hend⟩
  · intro hzero
    have hsame : d.setLocal .cursor ((e.cursor - 1 : Nat) : Int) = d := Desk.setLocal_same (by rw [he.cursor]; omega)
    refine .pure ⟨d.setLocal .cursor ((e.cursor - 1 : Nat) : Int), ?_, he.moveTo _, hend⟩
    rw [hsame]
    exact h

theorem rightKey_shown (h : Calm f s d) (he : Edits d e) (hend : d.text e.line.length = 0) :
    Prog.Sat (rightKey f) s fun _ t => Shown f (e.press .right) t := by
  have hcursor := he.cursor_small
  unfold rightKey
  apply Prog.Sat.step (getLocal_run h .cursor)
  apply Prog.Sat.step (getLocal_run h .length)
  rw [he.cursor, he.length]
  unfold LineEditor.press
  dsimp only
  by_cases hlt : e.cursor < e.line.length
  · have hstep : (e.cursor : Int) + 1 = ((e.cursor + 1 : Nat) : Int) := by omega
    have hword : InWord (d.locals .cursor + 1) := by
      rw [he.cursor]
      exact small_word (by omega) (by omega)
    rw [if_pos (by exact_mod_cast hlt), dif_pos hlt]
    apply Prog.Sat.mono (addLocal_calm h (by decide) 1 hword)
    intro _ t ht
    rw [he.cursor, hstep] at ht
    exact ⟨_, ht, he.moveTo _, hend⟩
  · rw [if_neg (by exact_mod_cast hlt), dif_neg hlt]
    exact .pure ⟨d, h, he, hend⟩

theorem toStart_shown (h : Calm f s d) (he : Edits d e) (hend : d.text e.line.length = 0) :
    Prog.Sat (countDown f .cursor) s fun _ t => Shown f (e.press .toStart) t := by
  have hcursor := he.cursor_small
  apply Prog.Sat.mono (countDown_calm h (by decide) he.cursor (by omega))
  intro _ t ht
  exact ⟨_, ht, he.moveTo (Nat.zero_le _), hend⟩

theorem toEnd_shown (h : Calm f s d) (he : Edits d e) (hend : d.text e.line.length = 0) :
    Prog.Sat (cursorToEnd f) s fun _ t => Shown f (e.press .toEnd) t := by
  have hshort := he.short
  apply Prog.Sat.mono (cursorToEnd_calm h he.cursor he.length e.cursor_le (by omega))
  intro _ t ht
  exact ⟨_, ht, he.moveTo (Nat.le_refl _), hend⟩

/-! ## Keys that change the line -/

theorem terminateLine_calm (h : Calm f s d) (hlength : d.locals .length = n)
    (hn : n < 16 ∨ n = 16 ∧ d.locals .insertShift % 256 = 0) :
    Prog.Sat (terminateLine f) s fun _ t => Calm f t (d.put n 0) := by
  unfold terminateLine
  apply Prog.Sat.step (getLocal_run h .length)
  rw [hlength]
  rcases hn with hlt | ⟨rfl, hlow⟩
  · exact writeBuffer_calm h hlt 0
  · exact writeBuffer_edge h hlow

/-- The text that the removal of a character leaves. -/
theorem removed_text {text : Nat → UInt8} {chars : List UInt8} (htext : ∀ (i : Nat) c, chars[i]? = some c → text i = c)
    (ha : a < chars.length) (hshift : k = chars.length - a ∨ k = chars.length - 1 - a) {i : Nat} {c : UInt8}
    (hi : (chars.eraseIdx a)[i]? = some c) : Function.update (pulled text a k) (chars.length - 1) 0 i = c := by
  rw [List.getElem?_eraseIdx] at hi
  by_cases hia : i < a
  · rw [if_pos hia] at hi
    rw [Function.update_of_ne (by omega), pulled, if_neg (by omega)]
    exact htext i c hi
  · rw [if_neg hia] at hi
    have hline : i + 1 < chars.length := (List.getElem?_eq_some_iff.mp hi).1
    rw [Function.update_of_ne (by omega), pulled, if_pos (by omega)]
    exact htext (i + 1) c hi

/-- The desk behind a removal. -/
theorem Edits.removeAt (h : Edits d e) {d' : Desk} (ha : a < e.line.length) (hk : k = e.line.length - a ∨ k = e.line.length - 1 - a)
    (hlength : d'.locals .length = ((e.line.length - 1 : Nat) : Int)) (hcursor : d'.locals .cursor = a)
    (htext : d'.text = Function.update (pulled d.text a k) (e.line.length - 1) 0) (hslots : d'.slots = d.slots) :
    Edits d' (e.removeAt a ha) ∧ d'.text (e.removeAt a ha).line.length = 0 := by
  have hshort := h.short
  have hsize : (e.line.eraseIdx a).length = e.line.length - 1 := List.length_eraseIdx_of_lt ha
  have hend : d'.text (e.line.eraseIdx a).length = 0 := by
    rw [htext, hsize, Function.update_self]
  refine ⟨⟨?_, hcursor, ?_, ?_, ?_, fun _ => hend, ?_, ?_, h.historyShort⟩, hend⟩
  · show d'.locals .length = ((e.line.eraseIdx a).length : Int)
    rw [hsize, hlength]
  · intro i c hi
    rw [htext]
    exact removed_text h.text ha hk hi
  · show (e.line.eraseIdx a).length ≤ 16
    omega
  · intro hfull
    have hlong : (e.line.eraseIdx a).length = 16 := hfull
    omega
  · rw [hslots]
    exact h.historyLength
  · rw [hslots]
    exact h.history

theorem deleteKey_shown (h : Calm f s d) (he : Edits d e) (hend : d.text e.line.length = 0) :
    Prog.Sat (deleteKey f) s fun _ t => Shown f (e.press .delete) t := by
  have hshort := he.short
  unfold deleteKey
  apply Prog.Sat.step (getLocal_run h .cursor)
  apply Prog.Sat.step (getLocal_run h .length)
  rw [he.cursor, he.length]
  show Prog.Sat _ s fun _ t => Shown f e.delete t
  unfold LineEditor.delete
  by_cases hlt : e.cursor < e.line.length
  · rw [if_pos (by exact_mod_cast hlt), dif_pos hlt]
    have hset : InWord (e.cursor : Int) := small_word (by omega) (by omega)
    have hsub : InWord ((e.line.length - 1 : Nat) : Int) := small_word (by omega) (by omega)
    have hstep : (e.line.length : Int) + (-1) = ((e.line.length - 1 : Nat) : Int) := by omega
    apply Prog.Sat.seq (setLocal_calm h (by decide) hset)
    intro _ t ht
    have het : Edits (d.setLocal .deleteShift e.cursor) e := he.setLocal _ (by decide) (by decide) (by decide)
    apply Prog.Sat.seq (shiftDown_calm (b := e.line.length) ht (Desk.setLocal_self _ _ _) e.cursor_le (het.shows hend)
      (fun u d' hu hd' => by rw [getLocal_run hu, hd', het.length]) (by decide) (by decide) (by decide))
    intro _ u hu
    apply Prog.Sat.seq (addLocal_known (x := .length) (i := e.line.length) hu (by decide) ?_ hstep hsub)
    · intro _ w hw
      apply Prog.Sat.mono (terminateLine_calm (n := e.line.length - 1) hw (Desk.setLocal_self _ _ _) (Or.inl (by omega)))
      intro _ z hz
      refine ⟨_, hz, he.removeAt hlt (Or.inl rfl) ?_ ?_ rfl rfl⟩
      · rw [Desk.put_locals, Desk.setLocal_self]
      · rw [Desk.put_locals, Desk.setLocal_ne _ _ (by decide), Desk.setLocal_ne _ _ (by decide)]
        exact het.cursor
    · rw [Desk.setLocal_ne _ _ (by decide)]
      exact het.length
  · rw [if_neg (by exact_mod_cast hlt), dif_neg hlt]
    exact .pure ⟨d, h, he, hend⟩

theorem backspaceKey_shown (h : Calm f s d) (he : Edits d e) (hend : d.text e.line.length = 0) :
    Prog.Sat (backspaceKey f) s fun _ t => Shown f (e.press .backspace) t := by
  have hshort := he.short
  have hcursor := e.cursor_le
  unfold backspaceKey
  apply Prog.Sat.step (getLocal_run h .cursor)
  rw [he.cursor]
  show Prog.Sat _ s fun _ t => Shown f e.backspace t
  unfold LineEditor.backspace
  by_cases hpos : 0 < e.cursor
  · rw [if_pos (by exact_mod_cast hpos), dif_pos hpos]
    have hlt : e.cursor - 1 < e.line.length := by omega
    have hprev : (e.cursor : Int) - 1 = ((e.cursor - 1 : Nat) : Int) := by omega
    have hprev' : (e.cursor : Int) + (-1) = ((e.cursor - 1 : Nat) : Int) := by omega
    have hsub : (e.line.length : Int) - 1 = ((e.line.length - 1 : Nat) : Int) := by omega
    have hsub' : (e.line.length : Int) + (-1) = ((e.line.length - 1 : Nat) : Int) := by omega
    have hcursorWord : InWord ((e.cursor - 1 : Nat) : Int) := small_word (by omega) (by omega)
    have hlengthWord : InWord ((e.line.length - 1 : Nat) : Int) := small_word (by omega) (by omega)
    rw [hprev]
    apply Prog.Sat.step (shellWord_run hcursorWord)
    apply Prog.Sat.seq (setLocal_calm h (by decide) hcursorWord)
    intro _ t ht
    have het : Edits (d.setLocal .backspaceShift ((e.cursor - 1 : Nat) : Int)) e :=
      he.setLocal _ (by decide) (by decide) (by decide)
    -- the loop stops in front of the terminator, and reads no further
    apply Prog.Sat.seq (shiftDown_calm (b := e.line.length - 1) ht (Desk.setLocal_self _ _ _) (by omega)
      (Or.inl (by omega)) ?_ (by decide) (by decide) (by decide))
    · intro _ u hu
      rw [Desk.setLocal_text] at hu
      apply Prog.Sat.seq (addLocal_known (x := .length) (i := e.line.length) hu (by decide) ?_ hsub' hlengthWord)
      · intro _ w hw
        apply Prog.Sat.seq (addLocal_known (x := .cursor) (i := e.cursor) hw (by decide) ?_ hprev' hcursorWord)
        · intro _ y hy
          apply Prog.Sat.mono (terminateLine_calm (n := e.line.length - 1) hy ?_ (Or.inl (by omega)))
          · intro _ z hz
            refine ⟨_, hz, he.removeAt hlt (Or.inr rfl) ?_ ?_ rfl rfl⟩
            · rw [Desk.put_locals, Desk.setLocal_ne _ _ (by decide), Desk.setLocal_self]
            · rw [Desk.put_locals, Desk.setLocal_self]
          · rw [Desk.setLocal_ne _ _ (by decide), Desk.setLocal_self]
        · rw [Desk.setLocal_ne _ _ (by decide), Desk.setLocal_ne _ _ (by decide)]
          exact het.cursor
      · rw [Desk.setLocal_ne _ _ (by decide)]
        exact het.length
    · intro u d' hu hd'
      rw [Prog.bind_run_ok (getLocal_run hu .length), hd', het.length, hsub, shellWord_run hlengthWord]
  · rw [if_neg (by exact_mod_cast hpos), dif_neg hpos]
    exact .pure ⟨d, h, he, hend⟩

/-- The text that an insertion leaves. -/
theorem inserted_text {text : Nat → UInt8} {chars : List UInt8} (htext : ∀ (i : Nat) c, chars[i]? = some c → text i = c)
    (ha : a ≤ chars.length) {i : Nat} {x : UInt8} (hi : (chars.insertIdx a c)[i]? = some x) :
    Function.update (Function.update (pushed text chars.length (chars.length - a)) a c) (chars.length + 1) 0 i = x := by
  have hlt : i < (chars.insertIdx a c).length := (List.getElem?_eq_some_iff.mp hi).1
  rw [List.length_insertIdx_of_le_length ha] at hlt
  rw [List.getElem?_insertIdx] at hi
  rw [Function.update_of_ne (by omega)]
  by_cases hia : i < a
  · rw [if_pos hia] at hi
    rw [Function.update_of_ne (by omega), pushed, if_neg (by omega)]
    exact htext i x hi
  · rw [if_neg hia] at hi
    by_cases heq : i = a
    · rw [if_pos heq, if_pos (by omega)] at hi
      rw [heq, Function.update_self]
      exact Option.some.inj hi
    · rw [if_neg heq] at hi
      rw [Function.update_of_ne heq, pushed, if_pos (by omega)]
      exact htext (i - 1) x hi

/-- The desk behind an insertion. -/
theorem Edits.insert (h : Edits d e) {d' : Desk} (c : UInt8) (hroom : e.line.length ≤ 15)
    (hfull : e.line.length = 15 → d'.locals .insertShift % 256 = 0)
    (hlength : d'.locals .length = ((e.line.length + 1 : Nat) : Int))
    (hcursor : d'.locals .cursor = ((e.cursor + 1 : Nat) : Int))
    (htext : d'.text = Function.update (Function.update (pushed d.text e.line.length (e.line.length - e.cursor)) e.cursor c)
      (e.line.length + 1) 0)
    (hslots : d'.slots = d.slots) : Edits d' (e.insert c) ∧ d'.text (e.insert c).line.length = 0 := by
  have hlt : e.line.length < 127 := by omega
  have hsize : (e.line.insertIdx e.cursor c).length = e.line.length + 1 := List.length_insertIdx_of_le_length e.cursor_le c
  have hend : d'.text (e.line.insertIdx e.cursor c).length = 0 := by
    rw [htext, hsize, Function.update_self]
  unfold LineEditor.insert
  rw [dif_pos hlt]
  refine ⟨⟨?_, hcursor, ?_, ?_, ?_, fun _ => hend, ?_, ?_, h.historyShort⟩, hend⟩
  · show d'.locals .length = ((e.line.insertIdx e.cursor c).length : Int)
    rw [hsize, hlength]
  · intro i x hi
    rw [htext]
    exact inserted_text h.text e.cursor_le hi
  · show (e.line.insertIdx e.cursor c).length ≤ 16
    omega
  · intro hlong
    have hnow : (e.line.insertIdx e.cursor c).length = 16 := hlong
    exact hfull (by omega)
  · rw [hslots]
    exact h.historyLength
  · rw [hslots]
    exact h.history

theorem insertKey_shown (h : Calm f s d) (he : Edits d e) (hroom : e.line.length < 15 ∨ e.line.length = 15 ∧ e.cursor = 0)
    (hcharacter : d.locals .character = v) :
    Prog.Sat (insertKey f) s fun _ t => Shown f (e.press (.char (UInt8.ofInt v))) t := by
  have hcursor := e.cursor_le
  have hsmall : e.line.length ≤ 15 := by omega
  have hlengthWord : InWord (e.line.length : Int) := small_word (by omega) (by omega)
  have hnextWord : InWord ((e.line.length + 1 : Nat) : Int) := small_word (by omega) (by omega)
  have hcursorWord : InWord ((e.cursor + 1 : Nat) : Int) := small_word (by omega) (by omega)
  have hlt : (e.line.length : Int) < 127 := by omega
  have hstep : (e.line.length : Int) + 1 = ((e.line.length + 1 : Nat) : Int) := by omega
  have hnext : (e.cursor : Int) + 1 = ((e.cursor + 1 : Nat) : Int) := by omega
  unfold insertKey
  apply Prog.Sat.step (getLocal_run h .length)
  rw [he.length, if_pos hlt]
  apply Prog.Sat.seq (setLocal_calm h (by decide) hlengthWord)
  intro _ t ht
  have htcursor : (d.setLocal .insertShift e.line.length).locals .cursor = e.cursor := by
    rw [Desk.setLocal_ne _ _ (by decide)]
    exact he.cursor
  apply Prog.Sat.seq (shiftUp_calm ht htcursor (Desk.setLocal_self _ _ _) hcursor hsmall)
  intro _ u hu
  rw [Desk.setLocal_text] at hu
  -- `shift_index` has run down to the cursor, and every other local is what it was
  have hlocals : ∀ text (z : Int) x, x ≠ .insertShift →
      (((d.setLocal .insertShift e.line.length).withText text).setLocal .insertShift z).locals x = d.locals x := by
    intro text z x hx
    rw [Desk.setLocal_ne _ _ hx]
    exact Desk.setLocal_ne _ _ hx
  apply Prog.Sat.step (getLocal_run hu .cursor)
  apply Prog.Sat.step (getLocal_run hu .character)
  rw [hlocals _ _ _ (by decide), hlocals _ _ _ (by decide), he.cursor, hcharacter]
  apply Prog.Sat.seq (writeBuffer_calm hu (by omega) v)
  intro _ w hw
  apply Prog.Sat.seq (addLocal_known (x := .length) (i := e.line.length) hw (by decide) ?_ hstep hnextWord)
  · intro _ y hy
    apply Prog.Sat.seq (terminateLine_calm (n := e.line.length + 1) hy (Desk.setLocal_self _ _ _) ?_)
    · intro _ z hz
      apply Prog.Sat.mono (addLocal_known (x := .cursor) (i := e.cursor) hz (by decide) ?_ hnext hcursorWord)
      · intro _ q hq
        refine ⟨_, hq, he.insert (UInt8.ofInt v) hsmall ?_ ?_ (Desk.setLocal_self _ _ _) rfl rfl⟩
        · intro hfull
          have hzero : e.cursor = 0 := by omega
          rw [Desk.setLocal_ne _ _ (by decide), Desk.put_locals, Desk.setLocal_ne _ _ (by decide), Desk.put_locals,
            Desk.setLocal_self, hzero]
          rfl
        · rw [Desk.setLocal_ne _ _ (by decide), Desk.put_locals, Desk.setLocal_self]
      · rw [Desk.put_locals, Desk.setLocal_ne _ _ (by decide), Desk.put_locals, hlocals _ _ _ (by decide)]
        exact he.cursor
    · rcases hroom with hshort | ⟨hfull, hzero⟩
      · exact Or.inl (by omega)
      · refine Or.inr ⟨by omega, ?_⟩
        rw [Desk.setLocal_ne _ _ (by decide), Desk.put_locals, Desk.setLocal_self, hzero]
        rfl
  · rw [Desk.put_locals, hlocals _ _ _ (by decide)]
    exact he.length

/-! ## Enter -/

theorem runCommands_calm (commands : List CommandWrite) : ∀ {s : ShellState} {d : Desk}, Calm f s d →
    Prog.Sat (runCommands f commands) s fun _ t => ∃ d', Calm f t d' ∧ d'.text = d.text ∧ d'.slots = d.slots ∧
      ∀ x, x ∉ commandLocals → d'.locals x = d.locals x := by
  induction commands with
  | nil =>
      intro s d h
      exact .pure ⟨d, h, rfl, rfl, fun _ _ => rfl⟩
  | cons w ws ih =>
      intro s d h
      have hbuffer : w.target ≠ .buffer := by
        intro heq
        have hmem := w.ofCommand
        rw [heq] at hmem
        exact absurd hmem (by decide)
      apply Prog.Sat.seq (setLocal_calm h hbuffer w.fits)
      intro _ t ht
      apply Prog.Sat.mono (ih ht)
      rintro _ u ⟨d', hu, htext, hslots, hlocals⟩
      refine ⟨d', hu, htext, hslots, fun x hx => ?_⟩
      rw [hlocals x hx, Desk.setLocal_ne]
      intro heq
      rw [heq] at hx
      exact hx w.ofCommand

theorem saveHistory_calm (h : Calm f s d) (hlength : d.locals .length = n) (hn : n ≤ 16) :
    Prog.Sat (saveHistory f) s fun _ t => ∃ d', Calm f t d' ∧ d'.text = d.text ∧
      (∀ x, x ≠ .historySaveIndex → d'.locals x = d.locals x) ∧ (n = 0 → d'.slots = d.slots) ∧
      (0 < n → d'.slots 178 = n ∧ ∀ i : Nat, i < n → d'.slots (180 + i) = (d.text i).toNat) := by
  unfold saveHistory
  apply Prog.Sat.step (getLocal_run h .length)
  rw [hlength]
  by_cases hpos : 0 < n
  · rw [if_pos (by exact_mod_cast hpos)]
    have hzero : InWord 0 := small_word (by omega) (by omega)
    have hbehind : InWord (180 + (n : Int)) := small_word (by omega) (by omega)
    apply Prog.Sat.seq (setLocal_calm h (by decide) hzero)
    intro _ t ht
    have htlength : (d.setLocal .historySaveIndex 0).locals .length = n := by
      rw [Desk.setLocal_ne _ _ (by decide)]
      exact hlength
    apply Prog.Sat.seq (saveLine_calm ht (Desk.setLocal_self _ _ _) htlength hn)
    intro _ u hu
    have hlocals : ∀ slots (z : Int) x, x ≠ .historySaveIndex →
        (((d.setLocal .historySaveIndex 0).withSlots slots).setLocal .historySaveIndex z).locals x = d.locals x := by
      intro slots z x hx
      rw [Desk.setLocal_ne _ _ hx]
      exact Desk.setLocal_ne _ _ hx
    apply Prog.Sat.step (getLocal_run hu .length)
    rw [hlocals _ _ _ (by decide), hlength]
    apply Prog.Sat.step (shellWord_run hbehind)
    apply Prog.Sat.seq (shellSet_calm hu _ _)
    intro _ w hw
    apply Prog.Sat.mono (shellSet_calm hw _ _)
    intro _ z hz
    refine ⟨_, hz, rfl, fun x hx => hlocals _ _ x hx, fun hn => by omega, fun _ => ⟨?_, fun i hi => ?_⟩⟩
    · rw [Desk.withSlots_slots, Function.update_self]
    · have hword : (180 + (i : Int) - 180).toNat = i := by omega
      rw [Desk.withSlots_slots, Function.update_of_ne (by omega), Desk.withSlots_slots, Function.update_of_ne (by omega),
        Desk.setLocal_slots, Desk.withSlots_slots, savedWords, if_pos (by omega), hword, Desk.setLocal_text]
  · rw [if_neg (by exact_mod_cast hpos)]
    exact .pure ⟨d, h, rfl, fun _ _ => rfl, fun _ => rfl, fun hn => absurd hn hpos⟩

/-- The desk behind a line that has been entered. -/
theorem Edits.enter (h : Edits d e) {d' : Desk} (hlength : d'.locals .length = 0) (hcursor : d'.locals .cursor = 0)
    (htext : d'.text 0 = 0) (hempty : e.line.length = 0 → d'.slots = d.slots)
    (hsaved : 0 < e.line.length →
      d'.slots 178 = e.line.length ∧ ∀ i : Nat, i < e.line.length → d'.slots (180 + i) = (d.text i).toNat) :
    Edits d' e.enter ∧ d'.text e.enter.line.length = 0 := by
  refine ⟨⟨hlength, hcursor, fun i c hi => ?_, Nat.zero_le 16, fun hfull => ?_, fun _ => htext, ?_, ?_, ?_⟩, htext⟩
  · exact absurd hi (by exact fun hnone => nomatch (List.getElem?_nil.symm.trans hnone))
  · exact absurd hfull (Nat.succ_ne_zero 15).symm
  · unfold LineEditor.enter
    dsimp only
    by_cases hline : e.line = []
    · rw [if_pos hline, hempty (by rw [hline]; rfl)]
      exact h.historyLength
    · rw [if_neg hline]
      exact (hsaved (List.length_pos_iff.mpr hline)).1
  · unfold LineEditor.enter
    dsimp only
    by_cases hline : e.line = []
    · rw [if_pos hline, hempty (by rw [hline]; rfl)]
      exact h.history
    · rw [if_neg hline]
      intro i c hi
      have hlt : i < e.line.length := (List.getElem?_eq_some_iff.mp hi).1
      rw [(hsaved (List.length_pos_iff.mpr hline)).2 i hlt, h.text i c hi]
  · unfold LineEditor.enter
    dsimp only
    split
    · exact h.historyShort
    · exact h.short

theorem enterKey_shown (h : Calm f s d) (he : Edits d e) (commands : List CommandWrite) :
    Prog.Sat (enterKey f commands) s fun _ t => Shown f (e.press .enter) t := by
  have hshort := he.short
  have hzero : InWord 0 := small_word (by omega) (by omega)
  unfold enterKey
  apply Prog.Sat.seq (cursorToEnd_calm h he.cursor he.length e.cursor_le (by omega))
  intro _ s₁ h₁
  have hlength₁ : (d.setLocal .cursor e.line.length).locals .length = e.line.length := by
    rw [Desk.setLocal_ne _ _ (by decide)]
    exact he.length
  have hroom : e.line.length < 16 ∨ e.line.length = 16 ∧ (d.setLocal .cursor e.line.length).locals .insertShift % 256 = 0 := by
    rw [Desk.setLocal_ne _ _ (by decide)]
    by_cases hfull : e.line.length = 16
    · exact Or.inr ⟨hfull, he.full hfull⟩
    · exact Or.inl (by omega)
  apply Prog.Sat.seq (terminateLine_calm h₁ hlength₁ hroom)
  intro _ s₂ h₂
  apply Prog.Sat.seq (setLocal_calm h₂ (by decide) hzero)
  intro _ s₃ h₃
  apply Prog.Sat.seq (runCommands_calm commands h₃)
  rintro _ s₄ ⟨d₄, h₄, htext₄, hslots₄, hlocals₄⟩
  have hlength₄ : d₄.locals .length = e.line.length := by
    rw [hlocals₄ _ (by decide), Desk.setLocal_ne _ _ (by decide), Desk.put_locals]
    exact hlength₁
  apply Prog.Sat.seq (saveHistory_calm h₄ hlength₄ hshort)
  rintro _ s₅ ⟨d₅, h₅, htext₅, hlocals₅, hempty, hsaved⟩
  apply Prog.Sat.seq (setLocal_calm h₅ (by decide) hzero)
  intro _ s₆ h₆
  apply Prog.Sat.seq (setLocal_calm h₆ (by decide) hzero)
  intro _ s₇ h₇
  apply Prog.Sat.mono (writeBuffer_calm (k := 0) h₇ (by omega) 0)
  intro _ s₈ h₈
  refine ⟨_, h₈, he.enter ?_ ?_ ?_ ?_ ?_⟩
  · rw [Desk.put_locals, Desk.setLocal_ne _ _ (by decide), Desk.setLocal_self]
  · rw [Desk.put_locals, Desk.setLocal_self]
  · exact Desk.put_self _ _ _
  · intro hnone
    rw [Desk.put_slots, Desk.setLocal_slots, Desk.setLocal_slots, hempty hnone, hslots₄]
    rfl
  · intro hpos
    obtain ⟨hcount, hwords⟩ := hsaved hpos
    refine ⟨hcount, fun i hi => ?_⟩
    have hsame : d₄.text i = d.text i := by
      rw [htext₄]
      exact Desk.put_ne _ _ (by omega)
    rw [Desk.put_slots, Desk.setLocal_slots, Desk.setLocal_slots, hwords i hi, hsame]

/-! ## The saved line -/

/-- The desk behind a line that has been recalled. -/
theorem Edits.recallLine (h : Edits d e) {d' : Desk} (hpos : e.history ≠ [])
    (hfull : e.history.length = 16 → d'.locals .insertShift % 256 = 0) (hlength : d'.locals .length = e.history.length)
    (hcursor : d'.locals .cursor = e.history.length)
    (htext : d'.text = Function.update (loadedText d.slots d.text e.history.length) e.history.length 0)
    (hslots : d'.slots = d.slots) : Edits d' e.recallLine ∧ d'.text e.recallLine.line.length = 0 := by
  have hend : d'.text e.history.length = 0 := by
    rw [htext, Function.update_self]
  unfold LineEditor.recallLine
  rw [if_neg hpos]
  refine ⟨⟨hlength, hcursor, ?_, h.historyShort, hfull, fun _ => hend, ?_, ?_, h.historyShort⟩, hend⟩
  · intro i c hi
    have hlt : i < e.history.length := (List.getElem?_eq_some_iff.mp hi).1
    rw [htext, Function.update_of_ne (by omega), loadedText, if_pos hlt, h.history i c hi, ofInt_byte]
  · rw [hslots]
    exact h.historyLength
  · rw [hslots]
    exact h.history

theorem recallKey_shown (h : Calm f s d) (he : Edits d e) (hend : d.text e.line.length = 0)
    (hfull : e.history.length = 16 → d.locals .insertShift % 256 = 0) :
    Prog.Sat (recallKey f) s fun _ t => Shown f (e.press .recallLine) t := by
  have hshort := he.short
  have hcursor := he.cursor_small
  have hsaved := he.historyShort
  have hzero : InWord 0 := small_word (by omega) (by omega)
  have hlengthWord : InWord (e.line.length : Int) := small_word (by omega) (by omega)
  have hsavedWord : InWord (e.history.length : Int) := small_word (by omega) (by omega)
  have hroom : e.history.length < 16 ∨ e.history.length = 16 ∧ d.locals .insertShift % 256 = 0 := by
    by_cases hlong : e.history.length = 16
    · exact Or.inr ⟨hlong, hfull hlong⟩
    · exact Or.inl (by omega)
  unfold recallKey
  apply Prog.Sat.step (shellGet_run h 178)
  rw [he.historyLength]
  show Prog.Sat _ s fun _ t => Shown f e.recallLine t
  by_cases hpos : 0 < e.history.length
  · rw [if_pos (by exact_mod_cast hpos)]
    -- the old line is wiped off the screen: three counters run down
    apply Prog.Sat.seq (countDown_calm h (by decide) he.cursor (by omega))
    intro _ s₁ h₁
    apply Prog.Sat.step (getLocal_run h₁ .length)
    rw [Desk.setLocal_ne _ _ (by decide), he.length]
    apply Prog.Sat.seq (setLocal_calm h₁ (by decide) hlengthWord)
    intro _ s₂ h₂
    apply Prog.Sat.seq (countDown_calm h₂ (by decide) (Desk.setLocal_self _ _ _) (by omega))
    intro _ s₃ h₃
    have hlength₃ : (((d.setLocal .cursor 0).setLocal .clearCount e.line.length).setLocal .clearCount 0).locals .length =
        e.line.length := by
      rw [Desk.setLocal_ne _ _ (by decide), Desk.setLocal_ne _ _ (by decide), Desk.setLocal_ne _ _ (by decide)]
      exact he.length
    apply Prog.Sat.seq (countDown_calm h₃ (by decide) hlength₃ (by omega))
    intro _ s₄ h₄
    obtain ⟨d₄, h₄, hslots₄, htext₄, hinsert₄⟩ : ∃ d₄, Calm f s₄ d₄ ∧ d₄.slots = d.slots ∧ d₄.text = d.text ∧
        d₄.locals .insertShift = d.locals .insertShift := by
      refine ⟨_, h₄, rfl, rfl, ?_⟩
      rw [Desk.setLocal_ne _ _ (by decide), Desk.setLocal_ne _ _ (by decide), Desk.setLocal_ne _ _ (by decide),
        Desk.setLocal_ne _ _ (by decide)]
    -- the saved line takes its place
    apply Prog.Sat.step (shellGet_run h₄ 178)
    rw [hslots₄, he.historyLength]
    apply Prog.Sat.seq (setLocal_calm h₄ (by decide) hsavedWord)
    intro _ s₅ h₅
    apply Prog.Sat.seq (setLocal_calm h₅ (by decide) hzero)
    intro _ s₆ h₆
    have hlength₆ : ((d₄.setLocal .length e.history.length).setLocal .historyLoadIndex 0).locals .length =
        e.history.length := by
      rw [Desk.setLocal_ne _ _ (by decide), Desk.setLocal_self]
    apply Prog.Sat.seq (loadLine_calm h₆ (Desk.setLocal_self _ _ _) hlength₆ hsaved)
    intro _ s₇ h₇
    obtain ⟨d₇, h₇, hslots₇, htext₇, hlength₇, hinsert₇⟩ : ∃ d₇, Calm f s₇ d₇ ∧ d₇.slots = d.slots ∧
        d₇.text = loadedText d.slots d.text e.history.length ∧ d₇.locals .length = e.history.length ∧
        d₇.locals .insertShift = d.locals .insertShift := by
      refine ⟨_, h₇, hslots₄, ?_, ?_, ?_⟩
      · rw [← hslots₄, ← htext₄]
        rfl
      · rw [Desk.setLocal_ne _ _ (by decide)]
        exact hlength₆
      · rw [Desk.setLocal_ne _ _ (by decide), Desk.withText_locals, Desk.setLocal_ne _ _ (by decide),
          Desk.setLocal_ne _ _ (by decide), hinsert₄]
    rw [← hinsert₇] at hroom
    apply Prog.Sat.seq (terminateLine_calm h₇ hlength₇ hroom)
    intro _ s₈ h₈
    apply Prog.Sat.step (getLocal_run h₈ .length)
    rw [Desk.put_locals, hlength₇]
    apply Prog.Sat.mono (setLocal_calm h₈ (by decide) hsavedWord)
    intro _ s₉ h₉
    refine ⟨_, h₉, he.recallLine (List.ne_nil_of_length_pos hpos) ?_ ?_ (Desk.setLocal_self _ _ _) ?_ hslots₇⟩
    · rw [Desk.setLocal_ne _ _ (by decide), Desk.put_locals, hinsert₇]
      exact hfull
    · rw [Desk.setLocal_ne _ _ (by decide), Desk.put_locals]
      exact hlength₇
    · rw [← htext₇]
      rfl
  · have hnone : e.history = [] := List.eq_nil_of_length_eq_zero (by omega)
    rw [if_neg (by exact_mod_cast hpos), LineEditor.recallLine, if_pos hnone]
    exact .pure ⟨d, h, he, hend⟩

end Vnt.Os
