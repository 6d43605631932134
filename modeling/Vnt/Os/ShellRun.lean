import Vnt.Os.ShellKeys

/-!
# `Os.ShellRun` — the editor over a whole run

An event `Fits` a state when what it writes stays clear of the locals. Up to the first event that does not fit, `shell_run`
tracks the editor. The first line of more than sixteen characters leaves it: an insertion keeps its `shift_index` in the
bytes 16 to 23 of the very line that it moves.
-/

namespace Vnt.Os

open Lib

variable {f : Frame} {s t : ShellState} {d : Desk} {e : Editor} {event : KeyEvent}

/-! ## One event -/

/-- The branch that `handleCharacter` takes. -/
def keyProgram (f : Frame) (commands : List CommandWrite) : Option (EditKey UInt8) → Shell Unit
  | some .enter => enterKey f commands
  | some .recallLine => recallKey f
  | some .left => leftKey f
  | some .right => rightKey f
  | some .toStart => countDown f .cursor
  | some .toEnd => cursorToEnd f
  | some .delete => deleteKey f
  | some .backspace => backspaceKey f
  | some (.char _) => insertKey f
  | none => pure ()

theorem handleCharacter_run (h : Calm f s d) (commands : List CommandWrite) :
    handleCharacter f commands s = keyProgram f commands (keyOf (d.locals .character)) s := by
  unfold handleCharacter keyOf
  rw [Prog.bind_run_ok (getLocal_run h .character)]
  generalize d.locals .character = c
  by_cases henter : c = 13 ∨ c = 10
  · rw [if_pos henter, if_pos henter]
    rfl
  rw [if_neg henter, if_neg henter]
  by_cases hrecall : c = 257
  · rw [if_pos hrecall, if_pos hrecall]
    rfl
  rw [if_neg hrecall, if_neg hrecall]
  by_cases hleft : c = 258
  · rw [if_pos hleft, if_pos hleft]
    rfl
  rw [if_neg hleft, if_neg hleft]
  by_cases hright : c = 259
  · rw [if_pos hright, if_pos hright]
    rfl
  rw [if_neg hright, if_neg hright]
  by_cases hstart : c = 261
  · rw [if_pos hstart, if_pos hstart]
    rfl
  rw [if_neg hstart, if_neg hstart]
  by_cases htoEnd : c = 262
  · rw [if_pos htoEnd, if_pos htoEnd]
    rfl
  rw [if_neg htoEnd, if_neg htoEnd]
  by_cases hdelete : c = 260
  · rw [if_pos hdelete, if_pos hdelete]
    rfl
  rw [if_neg hdelete, if_neg hdelete]
  by_cases hback : c = 8 ∨ c = 127
  · rw [if_pos hback, if_pos hback]
    rfl
  rw [if_neg hback, if_neg hback]
  by_cases hprint : c ≥ 32
  · -- 127 has been a backspace already
    have hnot : c ≠ 127 := fun heq => hback (Or.inr heq)
    rw [if_pos ⟨hprint, hnot⟩, if_pos hprint]
    rfl
  · rw [if_neg (fun hboth => hprint hboth.1), if_neg hprint]
    rfl

/-- A printable key is inserted as its own byte. -/
theorem keyOf_char {c : Int} {x : UInt8} (h : keyOf c = some (.char x)) : x = UInt8.ofInt c := by
  unfold keyOf at h
  split_ifs at h <;> cases h
  rfl

/-- What an event writes stays clear of the locals, and it leaves a terminator. -/
def Fits (f : Frame) (event : KeyEvent) (s : ShellState) (e : Editor) : Prop :=
  match keyOf event.character with
  | some (.char _) => e.line.length < 15 ∨ e.line.length = 15 ∧ e.cursor = 0
  | some .enter => True
  | some .recallLine =>
      s.memory (f.line + e.line.length) = 0 ∧ (e.history.length = 16 → s.memory (f.line + 16) = 0)
  | _ => s.memory (f.line + e.line.length) = 0

/-- A terminator that is in memory is on the desk. -/
theorem Edits.terminator (h : Calm f s d) (he : Edits d e) (hend : s.memory (f.line + e.line.length) = 0) :
    d.text e.line.length = 0 := by
  by_cases hnil : e.line = []
  · have hlength : e.line.length = 0 := by rw [hnil]; rfl
    rw [hlength] at hend ⊢
    rw [← h.text 0 (by omega)]
    exact hend
  · exact he.terminated hnil

theorem keyProgram_shown (h : Calm f s d) (he : Edits d e) (hcharacter : d.locals .character = event.character)
    (hfit : Fits f event s e) :
    Prog.Sat (keyProgram f event.commands (keyOf event.character)) s fun _ t => Shown f (e.turn event) t := by
  unfold Fits at hfit
  unfold Editor.turn
  cases hkey : keyOf event.character with
  | none =>
      rw [hkey] at hfit
      exact .pure ⟨d, h, he, he.terminator h hfit⟩
  | some key =>
      rw [hkey] at hfit
      cases key with
      | char x =>
          have hchar := insertKey_shown h he hfit hcharacter
          rw [← keyOf_char hkey] at hchar
          exact hchar
      | enter => exact enterKey_shown h he event.commands
      | backspace => exact backspaceKey_shown h he (he.terminator h hfit)
      | delete => exact deleteKey_shown h he (he.terminator h hfit)
      | left => exact leftKey_shown h he (he.terminator h hfit)
      | right => exact rightKey_shown h he (he.terminator h hfit)
      | toStart => exact toStart_shown h he (he.terminator h hfit)
      | toEnd => exact toEnd_shown h he (he.terminator h hfit)
      | recallLine =>
          obtain ⟨hend, hedge⟩ := hfit
          refine recallKey_shown h he (he.terminator h hend) fun hlong => ?_
          have hlow := u64At_low s.memory (f.slot .insertShift)
          rw [slot_insertShift, hedge hlong] at hlow
          rw [← h.locals, slot_insertShift, ← hlow]
          rfl

theorem byte_same {x : Local} {v : Int} {k : Nat} (h : Calm f s d) (ht : Calm f t (d.setLocal x v)) (hx : x ≠ .insertShift)
    (hk : k ≤ 16) : t.memory (f.line + k) = s.memory (f.line + k) := by
  by_cases hlast : k = 16
  · have hs := u64At_low s.memory (f.slot .insertShift)
    have ht' := u64At_low t.memory (f.slot .insertShift)
    rw [h.locals] at hs
    rw [ht.locals, Desk.setLocal_ne _ _ (Ne.symm hx), ← hs, slot_insertShift] at ht'
    rw [hlast]
    exact UInt8.toNat_inj.mp (by exact_mod_cast ht')
  · have hlt : k < 16 := by omega
    rw [h.text k hlt, ht.text k hlt]
    rfl

/-- The store of the event itself does not change what fits. -/
theorem Fits.setLocal (h : Calm f s d) (ht : Calm f t (d.setLocal .character event.character)) (he : Edits d e)
    (hfit : Fits f event s e) : Fits f event t e := by
  have hterminator : t.memory (f.line + e.line.length) = s.memory (f.line + e.line.length) :=
    byte_same h ht (by decide) he.short
  have hedge : t.memory (f.line + 16) = s.memory (f.line + 16) := byte_same (k := 16) h ht (by decide) (Nat.le_refl 16)
  unfold Fits at hfit ⊢
  rw [hterminator, hedge]
  exact hfit

theorem keyOf_negative {c : Int} (h : c < 0) : keyOf c = none := by
  unfold keyOf
  split_ifs <;> first | rfl | omega

theorem shellTurn_shown (h : Calm f s d) (he : Edits d e) (hfit : Fits f event s e) :
    Prog.Sat (shellTurn f event) s fun _ t => Shown f (e.turn event) t := by
  obtain ⟨hlow, hhigh, -⟩ := event.polled
  have hword : InWord event.character := small_word (by omega) (by omega)
  have hidle : InWord (-1) := small_word (by omega) (by omega)
  have hedits : Edits (d.setLocal .character event.character) e := he.setLocal _ (by decide) (by decide) (by decide)
  unfold shellTurn
  apply Prog.Sat.seq (setLocal_calm h (by decide) hword)
  intro _ t ht
  have hfit' : Fits f event t e := Fits.setLocal h ht he hfit
  apply Prog.Sat.step (getLocal_run ht .character)
  rw [Desk.setLocal_self]
  by_cases hnegative : event.character < 0
  · rw [if_pos hnegative]
    have hprogram := keyProgram_shown ht hedits (Desk.setLocal_self _ _ _) hfit'
    rw [keyOf_negative hnegative] at hprogram
    exact hprogram
  · rw [if_neg hnegative]
    have hprogram := keyProgram_shown ht hedits (Desk.setLocal_self _ _ _) hfit'
    have hhandle : Prog.Sat (handleCharacter f event.commands) t fun _ u => Shown f (e.turn event) u := by
      obtain ⟨a, u, hrun, hu⟩ := hprogram
      refine ⟨a, u, ?_, hu⟩
      rw [handleCharacter_run ht, Desk.setLocal_self]
      exact hrun
    apply Prog.Sat.seq hhandle
    rintro _ u ⟨d', hu, hed, hend⟩
    apply Prog.Sat.mono (setLocal_calm hu (by decide) hidle)
    intro _ w hw
    exact ⟨_, hw, hed.setLocal _ (by decide) (by decide) (by decide), hend⟩

/-! ## A run -/

theorem Shown.matches (h : Shown f e t) : Matches f t e := by
  obtain ⟨d, hcalm, hedits, hend⟩ := h
  refine ⟨?_, ?_, ?_, ?_, ?_, ?_, hcalm.intact⟩
  · rw [hcalm.locals]
    exact hedits.length
  · rw [hcalm.locals]
    exact hedits.cursor
  · intro i c hi
    have hlt : i < e.line.length := (List.getElem?_eq_some_iff.mp hi).1
    have hshort := hedits.short
    rw [hcalm.text i (by omega)]
    exact hedits.text i c hi
  · rw [hcalm.shows (hedits.shows hend)]
    exact hend
  · rw [hcalm.slots]
    exact hedits.historyLength
  · rw [hcalm.slots]
    exact hedits.history

/-- Every event fits the state in which it arrives. -/
def Fitting (f : Frame) : List KeyEvent → ShellState → Editor → Prop
  | [], _, _ => True
  | event :: events, s, e =>
      Fits f event s e ∧ ∀ t, shellTurn f event s = .ok ((), t) → Fitting f events t (e.turn event)

theorem run_tracks (events : List KeyEvent) : ∀ {s : ShellState} {d : Desk} {e : Editor}, Calm f s d → Edits d e →
    Fitting f events s e → Tracks f events s e := by
  induction events with
  | nil =>
      intro s d e _ _ _
      exact trivial
  | cons event events ih =>
      intro s d e h he hfits
      obtain ⟨hfit, hrest⟩ := hfits
      obtain ⟨⟨⟩, t, hrun, hshown⟩ := shellTurn_shown h he hfit
      refine ⟨t, hrun, hshown.matches, ?_⟩
      obtain ⟨d', ht, hedits, -⟩ := hshown
      exact ih ht hedits (hrest t hrun)

/-- The inline assembly makes a frame calm. -/
theorem setBuffer_calm (hintact : s.clobbered = false) :
    Prog.Sat (setLocal f .buffer f.line) s fun _ t => ∃ d, Calm f t d ∧ d.slots = s.slots := by
  have habove := f.above
  have hmapped := f.mapped
  have hend : memoryEnd = 1073741824 := rfl
  have hline : InWord f.line := by
    unfold InWord Frame.line
    omega
  have hpointer := u64At_store_word s.memory (f.slot .buffer) hline
  apply Prog.Sat.modify
  show ∃ d, Calm f { s with memory := store s.memory (f.slot .buffer) 8 f.line } d ∧ d.slots = s.slots
  generalize store s.memory (f.slot .buffer) 8 f.line = mem at hpointer ⊢
  refine ⟨⟨fun x => u64At mem (f.slot x), fun k => mem (f.line + k), s.slots⟩,
    ⟨?_, ?_, fun _ _ => rfl, rfl, hintact⟩, rfl⟩
  · intro x
    dsimp only
  · dsimp only
    exact hpointer

/-- The frame that `shell_run` enters its loop with. -/
theorem shellSetUp_calm {memory : Memory} {slots : Slots} (text : Int) (hslots : slots 178 = 0) :
    Prog.Sat (shellSetUp f text) ⟨memory, slots, false⟩ fun _ t =>
      ∃ d, Calm f t d ∧ Edits d (LineEditor.empty 127) := by
  have hzero : InWord 0 := small_word (by omega) (by omega)
  have hidle : InWord (-1) := small_word (by omega) (by omega)
  have hfirst : Prog.Sat (setLocal f .buffer text) ⟨memory, slots, false⟩ fun _ t =>
      t.slots = slots ∧ t.clobbered = false := Prog.Sat.modify ⟨rfl, rfl⟩
  unfold shellSetUp
  apply Prog.Sat.seq hfirst
  rintro _ s₁ ⟨hslots₁, hintact⟩
  apply Prog.Sat.seq (setBuffer_calm hintact)
  rintro _ s₂ ⟨d, h₂, hslots₂⟩
  apply Prog.Sat.seq (setLocal_calm h₂ (by decide) hzero)
  intro _ s₃ h₃
  apply Prog.Sat.seq (setLocal_calm h₃ (by decide) hzero)
  intro _ s₄ h₄
  apply Prog.Sat.seq (setLocal_calm h₄ (by decide) hidle)
  intro _ s₅ h₅
  apply Prog.Sat.mono (setLocal_calm h₅ (by decide) hzero)
  intro _ s₆ h₆
  refine ⟨_, h₆, ?_, ?_, ?_, Nat.zero_le 16, ?_, fun hne => absurd rfl hne, ?_, ?_, Nat.zero_le 16⟩
  · rw [Desk.setLocal_ne _ _ (by decide), Desk.setLocal_ne _ _ (by decide), Desk.setLocal_ne _ _ (by decide),
      Desk.setLocal_self]
    rfl
  · rw [Desk.setLocal_ne _ _ (by decide), Desk.setLocal_ne _ _ (by decide), Desk.setLocal_self]
    rfl
  · intro i c hi
    exact absurd hi (by exact fun hnone => nomatch (List.getElem?_nil.symm.trans hnone))
  · intro hfull
    exact absurd hfull (Nat.succ_ne_zero 15).symm
  · rw [Desk.setLocal_slots, Desk.setLocal_slots, Desk.setLocal_slots, Desk.setLocal_slots, hslots₂, hslots₁, hslots]
    rfl
  · intro i c hi
    exact absurd hi (by exact fun hnone => nomatch (List.getElem?_nil.symm.trans hnone))

/-- As long as every event fits, the frame is that of the editor. -/
theorem shell_tracks {memory : Memory} {slots : Slots} {text : Int} (events : List KeyEvent) (hslots : slots 178 = 0)
    (hstart : shellSetUp f text ⟨memory, slots, false⟩ = .ok ((), s)) (hfits : Fitting f events s (LineEditor.empty 127)) :
    Tracks f events s (LineEditor.empty 127) := by
  obtain ⟨⟨⟩, s', hrun, d, h, he⟩ := @shellSetUp_calm f memory slots text hslots
  rw [hstart] at hrun
  cases hrun
  exact run_tracks events h he hfits

/-- A character, typed. -/
def typed (c : UInt8) : KeyEvent where
  character := c.toNat
  commands := []
  polled := by
    have hlt := c.toNat_lt
    omega

def lowFrame : Frame := ⟨4096, by decide, by decide⟩

/-- Two characters, Enter, and a third. -/
theorem shell_tracks_hi : ∃ s, shellSetUp lowFrame 0 ⟨fun _ => 0, fun _ => 0, false⟩ = .ok ((), s) ∧
    Tracks lowFrame [typed 104, typed 105, typed 13, typed 111] s (LineEditor.empty 127) := by
  refine ⟨_, rfl, shell_tracks _ rfl rfl ?_⟩
  refine ⟨?_, fun _ _ => ⟨?_, fun _ _ => ⟨?_, fun _ _ => ⟨?_, fun _ _ => trivial⟩⟩⟩⟩
  · exact Or.inl (by decide)
  · exact Or.inl (by decide)
  · exact trivial
  · exact Or.inl (by decide)

/-! ## A longer line -/

/-- The loop of `shell_run` on the events of a run. -/
def shellRun (f : Frame) (events : List KeyEvent) : Shell Unit := Prog.forEach (shellTurn f) events

theorem Tracks.run {events : List KeyEvent} : ∀ {event : KeyEvent} {s : ShellState} {e : Editor},
    Tracks f (event :: events) s e →
    ∃ t, shellRun f (event :: events) s = .ok ((), t) ∧ Matches f t ((event :: events).foldl Editor.turn e) := by
  induction events with
  | nil =>
      intro event s e htracks
      obtain ⟨t, hturn, hmatches, -⟩ := htracks
      exact ⟨t, Prog.forEach_run hturn [], hmatches⟩
  | cons next events ih =>
      intro event s e htracks
      obtain ⟨t, hturn, -, hrest⟩ := htracks
      obtain ⟨u, hrun, hu⟩ := ih hrest
      exact ⟨u, (Prog.forEach_run hturn (next :: events)).trans hrun, hu⟩

/-- Eighteen letters. -/
def letters : List KeyEvent := typed 97 :: List.replicate 17 (typed 97)

def lettersRun : Shell Unit := do
  shellSetUp lowFrame 0
  shellRun lowFrame letters

/-- The seventeenth byte of the line that a run leaves. -/
def seventeenth : Except Fault (Unit × ShellState) → Option UInt8
  | .ok (_, t) => some (t.memory (lowFrame.line + 16))
  | .error _ => none

/-- The eighteenth letter is inserted behind the seventeenth, and `shift_index` is there. -/
theorem seventeenth_other :
    (seventeenth (lettersRun ⟨fun _ => 0, fun _ => 0, false⟩)).any (fun c => c != 97) = true := by
  decide +kernel

theorem shell_loses_letter : ¬∀ (f : Frame) (memory : Memory) (slots : Slots) (text : Int) (events : List KeyEvent)
    (s : ShellState), slots 178 = 0 → shellSetUp f text ⟨memory, slots, false⟩ = .ok ((), s) →
    Tracks f events s (LineEditor.empty 127) := by
  intro h
  obtain ⟨⟨⟩, s, hstart, -⟩ := @shellSetUp_calm lowFrame (fun _ => 0) (fun _ => 0) 0 rfl
  obtain ⟨t, hrun, hmatches⟩ := (h lowFrame _ _ 0 letters s rfl hstart).run
  have hline : (letters.foldl Editor.turn (LineEditor.empty 127)).line[16]? = some 97 := by decide
  have hsame : t.memory (lowFrame.line + 16) = 97 := hmatches.text 16 97 hline
  have hall : lettersRun ⟨fun _ => 0, fun _ => 0, false⟩ = .ok ((), t) := by
    unfold lettersRun
    exact (@Prog.bind_run_ok _ _ _ _ _ (fun _ => shellRun lowFrame letters) _ _ _ hstart).trans hrun
  have hother := seventeenth_other
  rw [hall] at hother
  have hne : (t.memory (lowFrame.line + 16) != 97) = true := hother
  rw [hsame] at hne
  exact absurd hne (by decide)

end Vnt.Os
