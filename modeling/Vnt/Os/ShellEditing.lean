import Vnt.Os.Shell

/-!
# `Os.ShellEditing` — the editor as long as a line is short

A line of fifteen characters and its terminator are the bytes of the buffer that belong to no local. From a calm frame that
shows an editor every key leads to a calm frame that shows the editor after that key, as long as no character arrives for a
sixteenth place. The loops count: `Sat.count` runs them, with the desk after `k` turns as what holds in front of turn `k`.
-/

namespace Vnt.Os

open Lib

variable {f : Frame} {s t : ShellState} {d : Desk} {e : Editor} {x : Local} {v : Int} {a b k n : Nat}

/-! ## The desk after an update -/

namespace Desk

theorem setLocal_same (h : d.locals x = v) : d.setLocal x v = d := by
  unfold setLocal
  rw [← h, Function.update_eq_self]

theorem setLocal_setLocal (d : Desk) (x : Local) (v w : Int) : (d.setLocal x v).setLocal x w = d.setLocal x w := by
  unfold setLocal
  dsimp only
  rw [Function.update_idem]

end Desk

theorem ofInt_byte (c : UInt8) : UInt8.ofInt (c.toNat : Int) = c := by
  have hlt := c.toNat_lt
  rw [← UInt8.toNat_inj, UInt8.ofInt, UInt8.toNat_ofNat']
  omega

/-- Numbers of this size never overflow. -/
theorem small_word {z : Int} (hlow : -1000 ≤ z) (hhigh : z ≤ 1000) : InWord z := by
  unfold InWord
  omega

/-! ## Counting loops -/

theorem turns_lt (h : n ≤ 500) : n < shellTurns := by
  unfold shellTurns
  omega

/-- A sum of numbers that are known. -/
theorem addLocal_known {i j z : Int} (h : Calm f s d) (hx : x ≠ .buffer) (hold : d.locals x = i) (hj : i + z = j)
    (hword : InWord j) : Prog.Sat (addLocal f x z) s fun _ t => Calm f t (d.setLocal x j) := by
  have hsum : d.locals x + z = j := by
    rw [hold]
    exact hj
  apply Prog.Sat.mono (addLocal_calm h hx z (by rw [hsum]; exact hword))
  intro _ t ht
  rw [hsum] at ht
  exact ht

/-- A counter that is increased once more. -/
theorem addLocal_again {i j z : Int} (h : Calm f s (d.setLocal x i)) (hx : x ≠ .buffer) (hj : i + z = j) (hword : InWord j) :
    Prog.Sat (addLocal f x z) s fun _ t => Calm f t (d.setLocal x j) := by
  apply Prog.Sat.mono (addLocal_known h hx (Desk.setLocal_self d x i) hj hword)
  intro _ t ht
  rw [Desk.setLocal_setLocal] at ht
  exact ht

theorem countDown_calm (h : Calm f s d) (hx : x ≠ .buffer) (hn : d.locals x = n) (hsmall : n ≤ 500) :
    Prog.Sat (countDown f x) s fun _ t => Calm f t (d.setLocal x 0) := by
  have hloop : Prog.Sat (countDown f x) s fun _ t => Calm f t (d.setLocal x (n - (n : Int))) := by
    apply Prog.Sat.count (fun k t => Calm f t (d.setLocal x (n - (k : Int)))) n
    · intro k t hk ht
      apply Prog.Sat.step (getLocal_run ht x)
      rw [Desk.setLocal_self]
      refine .pure ⟨?_, ht⟩
      rw [decide_eq_decide]
      omega
    · intro k t hk ht
      exact addLocal_again ht hx (by omega) (small_word (by omega) (by omega))
    · show Calm f s (d.setLocal x (n - ((0 : Nat) : Int)))
      rw [Desk.setLocal_same (by rw [hn, Nat.cast_zero, Int.sub_zero])]
      exact h
    · exact turns_lt hsmall
  rw [Int.sub_self] at hloop
  exact hloop

theorem cursorToEnd_calm (h : Calm f s d) (hcursor : d.locals .cursor = a) (hlength : d.locals .length = n) (hle : a ≤ n)
    (hsmall : n ≤ 500) : Prog.Sat (cursorToEnd f) s fun _ t => Calm f t (d.setLocal .cursor n) := by
  have hloop : Prog.Sat (cursorToEnd f) s fun _ t => Calm f t (d.setLocal .cursor ((a + (n - a) : Nat) : Int)) := by
    apply Prog.Sat.count (fun k t => Calm f t (d.setLocal .cursor ((a + k : Nat) : Int))) (n - a)
    · intro k t hk ht
      have hbound : (d.setLocal .cursor ((a + k : Nat) : Int)).locals .length = n := by
        rw [Desk.setLocal_ne d _ (by decide), hlength]
      apply Prog.Sat.step (getLocal_run ht .cursor)
      apply Prog.Sat.step (getLocal_run ht .length)
      rw [Desk.setLocal_self, hbound]
      refine .pure ⟨?_, ht⟩
      rw [decide_eq_decide]
      omega
    · intro k t hk ht
      exact addLocal_again ht (by decide) (by omega) (small_word (by omega) (by omega))
    · show Calm f s (d.setLocal .cursor ((a + 0 : Nat) : Int))
      rw [Desk.setLocal_same (by rw [hcursor]; rfl)]
      exact h
    · exact turns_lt (by omega)
  rw [Nat.add_sub_cancel' hle] at hloop
  exact hloop

/-! ## Moving text -/

/-- `k` characters from `a` on, each replaced by the next. -/
def pulled (text : Nat → UInt8) (a k : Nat) : Nat → UInt8 := fun i => if a ≤ i ∧ i < a + k then text (i + 1) else text i

/-- `k` characters up to `n`, each replaced by the one before. -/
def pushed (text : Nat → UInt8) (n k : Nat) : Nat → UInt8 := fun i => if n - k < i ∧ i ≤ n then text (i - 1) else text i

theorem pulled_zero (text : Nat → UInt8) (a : Nat) : pulled text a 0 = text := by
  funext i
  exact if_neg (by omega)

theorem pulled_succ (text : Nat → UInt8) (a k : Nat) :
    Function.update (pulled text a k) (a + k) (pulled text a k (a + k + 1)) = pulled text a (k + 1) := by
  funext i
  by_cases hi : i = a + k
  · rw [hi, Function.update_self, pulled, pulled, if_neg (by omega), if_pos (by omega)]
  · rw [Function.update_of_ne hi, pulled, pulled]
    by_cases hin : a ≤ i ∧ i < a + k
    · rw [if_pos hin, if_pos (by omega)]
    · rw [if_neg hin, if_neg (by omega)]

theorem pushed_zero (text : Nat → UInt8) (n : Nat) : pushed text n 0 = text := by
  funext i
  exact if_neg (by omega)

theorem pushed_succ (text : Nat → UInt8) (n : Nat) (hk : k < n) :
    Function.update (pushed text n k) (n - k) (pushed text n k (n - k - 1)) = pushed text n (k + 1) := by
  funext i
  by_cases hi : i = n - k
  · rw [hi, Function.update_self, pushed, pushed, if_neg (by omega), if_pos (by omega)]
  · rw [Function.update_of_ne hi, pushed, pushed]
    by_cases hin : n - k < i ∧ i ≤ n
    · rw [if_pos hin, if_pos (by omega)]
    · rw [if_neg hin, if_neg (by omega)]

def Desk.withText (d : Desk) (text : Nat → UInt8) : Desk := { d with text := text }

@[simp] theorem Desk.withText_locals (d : Desk) (text : Nat → UInt8) : (d.withText text).locals = d.locals := rfl

/-- A turn that copies a byte, and what it does next. -/
theorem copyByte_calm {j m : Nat} {next : Shell Unit} {Q : Unit → ShellState → Prop} (h : Calm f s d) (hm : d.Shows m)
    (hj : j < 16) (hnext : ∀ u, Calm f u (d.put j (d.text m)) → Prog.Sat next u Q) :
    Prog.Sat (do
      let c ← readBuffer f m
      writeBuffer f j c
      next) s Q := by
  apply Prog.Sat.step (readBuffer_run h hm)
  apply Prog.Sat.seq (writeBuffer_calm h hj _)
  intro _ u hu
  rw [ofInt_byte] at hu
  exact hnext u hu

theorem shiftDown_calm {bound : Shell Int} (h : Calm f s d) (hstart : d.locals x = a) (hle : a ≤ b) (hb : d.Shows b)
    (hbound : ∀ t d', Calm f t d' → d'.locals .length = d.locals .length → bound t = .ok ((b : Int), t))
    (hx : x ≠ .buffer) (hlength : x ≠ .length) (hinsert : x ≠ .insertShift) :
    Prog.Sat (shiftDown f x bound) s fun _ t => Calm f t ((d.withText (pulled d.text a (b - a))).setLocal x b) := by
  have hb16 := hb.le
  have hloop : Prog.Sat (shiftDown f x bound) s fun _ t =>
      Calm f t ((d.withText (pulled d.text a (b - a))).setLocal x ((a + (b - a) : Nat) : Int)) := by
    apply Prog.Sat.count (fun k t => Calm f t ((d.withText (pulled d.text a k)).setLocal x ((a + k : Nat) : Int))) (b - a)
    · intro k t hk ht
      have hsame : ((d.withText (pulled d.text a k)).setLocal x ((a + k : Nat) : Int)).locals .length =
          d.locals .length := Desk.setLocal_ne _ _ (Ne.symm hlength)
      apply Prog.Sat.step (getLocal_run ht x)
      apply Prog.Sat.step (hbound t _ ht hsame)
      rw [Desk.setLocal_self]
      refine .pure ⟨?_, ht⟩
      rw [decide_eq_decide]
      omega
    · intro k t hk ht
      have hnext : InWord (((a + k : Nat) : Int) + 1) := small_word (by omega) (by omega)
      have hcast : ((a + k : Nat) : Int) + 1 = ((a + k + 1 : Nat) : Int) := by omega
      -- only the last turn can read the byte behind the sixteen
      have hshows : ((d.withText (pulled d.text a k)).setLocal x ((a + k : Nat) : Int)).Shows (a + k + 1) := by
        rcases hb with hlt | ⟨heq, hlow, htext⟩
        · exact Or.inl (by omega)
        · by_cases hlast : a + k + 1 = 16
          · refine Or.inr ⟨hlast, ?_, ?_⟩
            · rw [Desk.setLocal_ne _ _ (Ne.symm hinsert)]
              exact hlow
            · rw [← htext]
              exact if_neg (by omega)
          · exact Or.inl (by omega)
      apply Prog.Sat.step (getLocal_run ht x)
      rw [Desk.setLocal_self]
      apply Prog.Sat.step (shellWord_run hnext)
      rw [hcast]
      apply copyByte_calm ht hshows (by omega)
      intro u hu
      have hu' : Calm f u ((d.withText (pulled d.text a (k + 1))).setLocal x ((a + k : Nat) : Int)) := by
        rw [← pulled_succ]
        exact hu
      exact addLocal_again hu' hx rfl (small_word (by omega) (by omega))
    · show Calm f s ((d.withText (pulled d.text a 0)).setLocal x ((a + 0 : Nat) : Int))
      rw [pulled_zero]
      show Calm f s (d.setLocal x (a : Int))
      rw [Desk.setLocal_same hstart]
      exact h
    · exact turns_lt (by omega)
  rw [Nat.add_sub_cancel' hle] at hloop
  exact hloop

theorem shiftUp_calm (h : Calm f s d) (hcursor : d.locals .cursor = a) (hstart : d.locals .insertShift = n) (hle : a ≤ n)
    (hn : n ≤ 15) :
    Prog.Sat (shiftUp f) s fun _ t => Calm f t ((d.withText (pushed d.text n (n - a))).setLocal .insertShift a) := by
  have hloop : Prog.Sat (shiftUp f) s fun _ t =>
      Calm f t ((d.withText (pushed d.text n (n - a))).setLocal .insertShift ((n - (n - a) : Nat) : Int)) := by
    apply Prog.Sat.count
      (fun k t => Calm f t ((d.withText (pushed d.text n k)).setLocal .insertShift ((n - k : Nat) : Int))) (n - a)
    · intro k t hk ht
      have hbound : ((d.withText (pushed d.text n k)).setLocal .insertShift ((n - k : Nat) : Int)).locals .cursor = a := by
        rw [Desk.setLocal_ne _ _ (by decide)]
        exact hcursor
      apply Prog.Sat.step (getLocal_run ht .insertShift)
      apply Prog.Sat.step (getLocal_run ht .cursor)
      rw [Desk.setLocal_self, hbound]
      refine .pure ⟨?_, ht⟩
      rw [decide_eq_decide]
      omega
    · intro k t hk ht
      have hprev : InWord (((n - k : Nat) : Int) - 1) := small_word (by omega) (by omega)
      have hcast : ((n - k : Nat) : Int) - 1 = ((n - k - 1 : Nat) : Int) := by omega
      apply Prog.Sat.step (getLocal_run ht .insertShift)
      rw [Desk.setLocal_self]
      apply Prog.Sat.step (shellWord_run hprev)
      rw [hcast]
      apply copyByte_calm ht (Or.inl (by omega)) (by omega)
      intro u hu
      have hu' : Calm f u ((d.withText (pushed d.text n (k + 1))).setLocal .insertShift ((n - k : Nat) : Int)) := by
        rw [← pushed_succ d.text n (by omega)]
        exact hu
      exact addLocal_again hu' (by decide) (by omega) (small_word (by omega) (by omega))
    · show Calm f s ((d.withText (pushed d.text n 0)).setLocal .insertShift ((n - 0 : Nat) : Int))
      rw [pushed_zero]
      show Calm f s (d.setLocal .insertShift (n : Int))
      rw [Desk.setLocal_same hstart]
      exact h
    · exact turns_lt (by omega)
  rw [Nat.sub_sub_self hle] at hloop
  exact hloop

/-! ## The saved line -/

theorem shellGet_run (h : Calm f s d) (index : Int) : shellGet index s = .ok (d.slots index, s) := by
  rw [← h.slots]
  rfl

def Desk.withSlots (d : Desk) (slots : Slots) : Desk := { d with slots := slots }

@[simp] theorem Desk.withSlots_slots (d : Desk) (slots : Slots) : (d.withSlots slots).slots = slots := rfl

theorem shellSet_calm (h : Calm f s d) (index v : Int) :
    Prog.Sat (shellSet index v) s fun _ t => Calm f t (d.withSlots (Function.update d.slots index v)) := by
  apply Prog.Sat.modify
  refine ⟨h.locals, h.pointer, h.text, ?_, h.intact⟩
  show Function.update s.slots index v = Function.update d.slots index v
  rw [h.slots]

/-- The words of the saved line once `k` characters have been saved. -/
def savedWords (slots : Slots) (text : Nat → UInt8) (k : Nat) : Slots :=
  fun i => if 180 ≤ i ∧ i < 180 + k then ((text (i - 180).toNat).toNat : Int) else slots i

theorem savedWords_zero (slots : Slots) (text : Nat → UInt8) : savedWords slots text 0 = slots := by
  funext i
  exact if_neg (by omega)

theorem savedWords_succ (slots : Slots) (text : Nat → UInt8) (k : Nat) :
    Function.update (savedWords slots text k) (180 + k) ((text k).toNat : Int) = savedWords slots text (k + 1) := by
  funext i
  by_cases hi : i = 180 + k
  · have hk : (180 + (k : Int) - 180).toNat = k := by omega
    rw [hi, Function.update_self, savedWords, if_pos (by omega), hk]
  · rw [Function.update_of_ne hi, savedWords, savedWords]
    by_cases hin : 180 ≤ i ∧ i < 180 + k
    · rw [if_pos hin, if_pos (by omega)]
    · rw [if_neg hin, if_neg (by omega)]

theorem saveLine_calm (h : Calm f s d) (hstart : d.locals .historySaveIndex = 0) (hlength : d.locals .length = n)
    (hn : n ≤ 16) : Prog.Sat (saveLine f) s fun _ t =>
      Calm f t ((d.withSlots (savedWords d.slots d.text n)).setLocal .historySaveIndex n) := by
  apply Prog.Sat.count
    (fun k t => Calm f t ((d.withSlots (savedWords d.slots d.text k)).setLocal .historySaveIndex (k : Int))) n
  · intro k t hk ht
    have hbound : ((d.withSlots (savedWords d.slots d.text k)).setLocal .historySaveIndex (k : Int)).locals .length =
        n := by
      rw [Desk.setLocal_ne _ _ (by decide)]
      exact hlength
    apply Prog.Sat.step (getLocal_run ht .historySaveIndex)
    apply Prog.Sat.step (getLocal_run ht .length)
    rw [Desk.setLocal_self, hbound]
    refine .pure ⟨?_, ht⟩
    rw [decide_eq_decide]
    omega
  · intro k t hk ht
    have htarget : InWord (180 + (k : Int)) := small_word (by omega) (by omega)
    apply Prog.Sat.step (getLocal_run ht .historySaveIndex)
    rw [Desk.setLocal_self]
    apply Prog.Sat.step (shellWord_run htarget)
    apply Prog.Sat.step (readBuffer_run ht (Or.inl (by omega)))
    apply Prog.Sat.seq (shellSet_calm ht _ _)
    intro _ u hu
    have hu' : Calm f u ((d.withSlots (savedWords d.slots d.text (k + 1))).setLocal .historySaveIndex (k : Int)) := by
      rw [← savedWords_succ]
      exact hu
    exact addLocal_again hu' (by decide) rfl (small_word (by omega) (by omega))
  · show Calm f s ((d.withSlots (savedWords d.slots d.text 0)).setLocal .historySaveIndex ((0 : Nat) : Int))
    rw [savedWords_zero]
    show Calm f s (d.setLocal .historySaveIndex (0 : Int))
    rw [Desk.setLocal_same hstart]
    exact h
  · exact turns_lt (by omega)

/-- The text once `k` characters have been loaded. -/
def loadedText (slots : Slots) (text : Nat → UInt8) (k : Nat) : Nat → UInt8 :=
  fun i => if i < k then UInt8.ofInt (slots (180 + i)) else text i

theorem loadedText_zero (slots : Slots) (text : Nat → UInt8) : loadedText slots text 0 = text := rfl

theorem loadedText_succ (slots : Slots) (text : Nat → UInt8) (k : Nat) :
    Function.update (loadedText slots text k) k (UInt8.ofInt (slots (180 + k))) = loadedText slots text (k + 1) := by
  funext i
  by_cases hi : i = k
  · rw [hi, Function.update_self, loadedText, if_pos (Nat.lt_succ_self k)]
  · rw [Function.update_of_ne hi, loadedText, loadedText]
    by_cases hin : i < k
    · rw [if_pos hin, if_pos (by omega)]
    · rw [if_neg hin, if_neg (by omega)]

theorem loadLine_calm (h : Calm f s d) (hstart : d.locals .historyLoadIndex = 0) (hlength : d.locals .length = n)
    (hn : n ≤ 16) : Prog.Sat (loadLine f) s fun _ t =>
      Calm f t ((d.withText (loadedText d.slots d.text n)).setLocal .historyLoadIndex n) := by
  apply Prog.Sat.count
    (fun k t => Calm f t ((d.withText (loadedText d.slots d.text k)).setLocal .historyLoadIndex (k : Int))) n
  · intro k t hk ht
    have hbound : ((d.withText (loadedText d.slots d.text k)).setLocal .historyLoadIndex (k : Int)).locals .length =
        n := by
      rw [Desk.setLocal_ne _ _ (by decide)]
      exact hlength
    apply Prog.Sat.step (getLocal_run ht .historyLoadIndex)
    apply Prog.Sat.step (getLocal_run ht .length)
    rw [Desk.setLocal_self, hbound]
    refine .pure ⟨?_, ht⟩
    rw [decide_eq_decide]
    omega
  · intro k t hk ht
    have hsource : InWord (180 + (k : Int)) := small_word (by omega) (by omega)
    apply Prog.Sat.step (getLocal_run ht .historyLoadIndex)
    rw [Desk.setLocal_self]
    apply Prog.Sat.step (shellWord_run hsource)
    apply Prog.Sat.step (shellGet_run ht _)
    apply Prog.Sat.seq (writeBuffer_calm ht (by omega) _)
    intro _ u hu
    have hu' : Calm f u ((d.withText (loadedText d.slots d.text (k + 1))).setLocal .historyLoadIndex (k : Int)) := by
      rw [← loadedText_succ]
      exact hu
    exact addLocal_again hu' (by decide) rfl (small_word (by omega) (by omega))
  · show Calm f s ((d.withText (loadedText d.slots d.text 0)).setLocal .historyLoadIndex ((0 : Nat) : Int))
    rw [loadedText_zero]
    show Calm f s (d.setLocal .historyLoadIndex (0 : Int))
    rw [Desk.setLocal_same hstart]
    exact h
  · exact turns_lt (by omega)

end Vnt.Os
