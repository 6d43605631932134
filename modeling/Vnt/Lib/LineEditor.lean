import Mathlib.Data.List.Basic

/-!
# `Lib.LineEditor` — a line of text and a cursor

An editor holds one line, of `cap` characters at most, a cursor that stands in front of one of them or behind the last, and
the last line that was entered. Keys that have nothing to act on leave it as it is.
-/

namespace Vnt.Lib

variable {α : Type} {cap : Nat}

inductive EditKey (α : Type) where
  | char (c : α)
  | enter
  | backspace
  | delete
  | left
  | right
  | toStart
  | toEnd
  | recallLine
  deriving DecidableEq, Repr

structure LineEditor (α : Type) (cap : Nat) where
  line : List α
  cursor : Nat
  /-- The last line entered that was not empty. -/
  history : List α
  cursor_le : cursor ≤ line.length
  line_le : line.length ≤ cap
  history_le : history.length ≤ cap

namespace LineEditor

/-- Nothing typed, nothing entered. -/
def empty (cap : Nat) : LineEditor α cap := ⟨[], 0, [], Nat.le_refl 0, Nat.zero_le cap, Nat.zero_le cap⟩

/-- The same line with the cursor somewhere else. -/
def moveTo (e : LineEditor α cap) (cursor : Nat) (h : cursor ≤ e.line.length) : LineEditor α cap :=
  ⟨e.line, cursor, e.history, h, e.line_le, e.history_le⟩

def insert (e : LineEditor α cap) (c : α) : LineEditor α cap :=
  if h : e.line.length < cap then
    { line := e.line.insertIdx e.cursor c
      cursor := e.cursor + 1
      history := e.history
      cursor_le := by
        rw [List.length_insertIdx_of_le_length e.cursor_le]
        exact Nat.succ_le_succ e.cursor_le
      line_le := by
        rw [List.length_insertIdx_of_le_length e.cursor_le]
        exact h
      history_le := e.history_le }
  else e

/-- Without the character at `i`, and with the cursor there. -/
def removeAt (e : LineEditor α cap) (i : Nat) (h : i < e.line.length) : LineEditor α cap where
  line := e.line.eraseIdx i
  cursor := i
  history := e.history
  cursor_le := by
    rw [List.length_eraseIdx_of_lt h]
    exact Nat.le_sub_one_of_lt h
  line_le := Nat.le_trans (List.length_eraseIdx_le e.line i) e.line_le
  history_le := e.history_le

def delete (e : LineEditor α cap) : LineEditor α cap :=
  if h : e.cursor < e.line.length then e.removeAt e.cursor h else e

def backspace (e : LineEditor α cap) : LineEditor α cap :=
  if h : 0 < e.cursor then e.removeAt (e.cursor - 1) (Nat.lt_of_lt_of_le (Nat.sub_one_lt (Nat.ne_of_gt h)) e.cursor_le)
  else e

def recallLine (e : LineEditor α cap) : LineEditor α cap :=
  if e.history = [] then e
  else ⟨e.history, e.history.length, e.history, Nat.le_refl _, e.history_le, e.history_le⟩

def enter (e : LineEditor α cap) : LineEditor α cap where
  line := []
  cursor := 0
  history := if e.line = [] then e.history else e.line
  cursor_le := Nat.le_refl 0
  line_le := Nat.zero_le cap
  history_le := by
    split
    · exact e.history_le
    · exact e.line_le

def press (e : LineEditor α cap) : EditKey α → LineEditor α cap
  | .char c => e.insert c
  | .enter => e.enter
  | .backspace => e.backspace
  | .delete => e.delete
  | .left => e.moveTo (e.cursor - 1) (Nat.le_trans (Nat.sub_le _ _) e.cursor_le)
  | .right => if h : e.cursor < e.line.length then e.moveTo (e.cursor + 1) h else e
  | .toStart => e.moveTo 0 (Nat.zero_le _)
  | .toEnd => e.moveTo e.line.length (Nat.le_refl _)
  | .recallLine => e.recallLine

end LineEditor

end Vnt.Lib
