import Vnt.Lib.LineEditor
import Vnt.Os.Memory

/-!
# `Os.Shell` — the line editor of the kernel shell (`os/kernel/shell.vnt`)

`shell_run` edits a line in 128 bytes that its inline assembly takes from the stack at `rbp - 160`. The freestanding backend
keeps the locals of a function on the same stack: the local that it collects as number `i` is the word at `rbp - 8(i + 1)`,
and `shell_run` declares eighteen. Both are memory here, so that a write through the one is seen through the other;
`clobbered` watches for writes into the buffer that change a byte of a local.

What the editor prints is left out. The commands of a finished line are known by the locals that they assign: nothing else
of the frame, of the buffer or of the saved line is written between the prompt and the next.
-/

namespace Vnt.Os

open Lib

/-- The locals of `shell_run`. Three of them are called `shift_index`. -/
inductive Local where
  | buffer
  | length
  | cursor
  | character
  | handled
  | historyIndex
  | ticks
  | acpiTestResult
  | passed
  | contentionResult
  | atomicResult
  | cpuIndex
  | historySaveIndex
  | clearCount
  | historyLoadIndex
  | deleteShift
  | backspaceShift
  | insertShift
  deriving DecidableEq, Repr

/-- In the order in which `collect_variables` meets them. -/
def shellLocals : List Local :=
  [.buffer, .length, .cursor, .character, .handled, .historyIndex, .ticks, .acpiTestResult, .passed, .contentionResult,
    .atomicResult, .cpuIndex, .historySaveIndex, .clearCount, .historyLoadIndex, .deleteShift, .backspaceShift,
    .insertShift]

/-- `variable_index` -/
def Local.index (x : Local) : Nat := shellLocals.idxOf x

/-- Where the frame is. -/
structure Frame where
  rbp : Int
  above : 160 ≤ rbp
  mapped : rbp ≤ memoryEnd

/-- `-8(i + 1)(%rbp)` -/
def Frame.slot (f : Frame) (x : Local) : Int := f.rbp - 8 * ((x.index : Int) + 1)

/-- `leaq -160(%rbp), %rax` -/
def Frame.line (f : Frame) : Int := f.rbp - 160

structure ShellState where
  memory : Memory
  slots : Slots
  /-- A write into the buffer has changed a local. -/
  clobbered : Bool

abbrev Shell (α : Type) := Prog ShellState Fault α

/-- No loop of the editor takes as many turns. -/
def shellTurns : Nat := 18446744073709551616

def shellWord (z : Int) : Shell Int := if InWord z then pure z else Prog.fault .arithmetic

variable (f : Frame)

/-! ## The frame -/

def getLocal (x : Local) : Shell Int := do
  let s ← Prog.get
  pure (u64At s.memory (f.slot x))

def setLocal (x : Local) (value : Int) : Shell Unit :=
  Prog.modify fun s => { s with memory := store s.memory (f.slot x) 8 value }

def addLocal (x : Local) (z : Int) : Shell Unit := do
  let v ← getLocal f x
  let w ← shellWord (v + z)
  setLocal f x w

/-- `(%rdx,%rcx)`, with the address of the buffer in `%rdx`. -/
def bufferAddress (index : Int) : Shell Int := do
  let base ← getLocal f .buffer
  let effective := (base + index) % 18446744073709551616
  if effective + 1 ≤ memoryEnd then pure effective else Prog.fault (.outside effective)

/-- `movzbl` -/
def readByte (a : Int) : Shell Int := do
  let s ← Prog.get
  pure (s.memory a).toNat

/-- `buffer[index]` -/
def readBuffer (index : Int) : Shell Int := do
  let a ← bufferAddress f index
  readByte a

/-- A byte of a local. -/
def InSlot (a : Int) : Prop := ∃ x ∈ shellLocals, f.slot x ≤ a ∧ a < f.slot x + 8

instance (a : Int) : Decidable (InSlot f a) :=
  inferInstanceAs (Decidable (∃ x ∈ shellLocals, f.slot x ≤ a ∧ a < f.slot x + 8))

/-- `buffer[index] = value` -/
def writeBuffer (index value : Int) : Shell Unit := do
  let a ← bufferAddress f index
  Prog.modify fun s => { s with
    memory := Function.update s.memory a (UInt8.ofInt value)
    clobbered := s.clobbered || decide (InSlot f a ∧ s.memory a ≠ UInt8.ofInt value) }

def shellGet (index : Int) : Shell Int := do
  let s ← Prog.get
  pure (s.slots index)

def shellSet (index value : Int) : Shell Unit := Prog.modify fun s => { s with slots := Function.update s.slots index value }

/-! ## Loops of the editor -/

/-- `while x > 0 { x = x - 1 }` -/
def countDown (x : Local) : Shell Unit :=
  Prog.whileDo .endless
    (do
      let v ← getLocal f x
      pure (decide (v > 0)))
    (addLocal f x (-1)) shellTurns

/-- `while cursor < length { cursor = cursor + 1 }` -/
def cursorToEnd : Shell Unit :=
  Prog.whileDo .endless
    (do
      let cursor ← getLocal f .cursor
      let length ← getLocal f .length
      pure (decide (cursor < length)))
    (addLocal f .cursor 1) shellTurns

/-- `while x < bound { buffer[x] = buffer[x + 1]; x = x + 1 }` -/
def shiftDown (x : Local) (bound : Shell Int) : Shell Unit :=
  Prog.whileDo .endless
    (do
      let v ← getLocal f x
      let b ← bound
      pure (decide (v < b)))
    (do
      let i ← getLocal f x
      let j ← shellWord (i + 1)
      let c ← readBuffer f j
      writeBuffer f i c
      addLocal f x 1)
    shellTurns

/-- `while shift_index > cursor { buffer[shift_index] = buffer[shift_index - 1]; shift_index = shift_index - 1 }` -/
def shiftUp : Shell Unit :=
  Prog.whileDo .endless
    (do
      let v ← getLocal f .insertShift
      let cursor ← getLocal f .cursor
      pure (decide (v > cursor)))
    (do
      let i ← getLocal f .insertShift
      let j ← shellWord (i - 1)
      let c ← readBuffer f j
      writeBuffer f i c
      addLocal f .insertShift (-1))
    shellTurns

/-- `while history_save_index < length { … }` -/
def saveLine : Shell Unit :=
  Prog.whileDo .endless
    (do
      let i ← getLocal f .historySaveIndex
      let length ← getLocal f .length
      pure (decide (i < length)))
    (do
      let i ← getLocal f .historySaveIndex
      let target ← shellWord (180 + i)
      let c ← readBuffer f i
      shellSet target c
      addLocal f .historySaveIndex 1)
    shellTurns

/-- `while history_load_index < length { … }` -/
def loadLine : Shell Unit :=
  Prog.whileDo .endless
    (do
      let i ← getLocal f .historyLoadIndex
      let length ← getLocal f .length
      pure (decide (i < length)))
    (do
      let i ← getLocal f .historyLoadIndex
      let source ← shellWord (180 + i)
      let c ← shellGet source
      writeBuffer f i c
      addLocal f .historyLoadIndex 1)
    shellTurns

/-! ## Keys -/

/-- `buffer[length] = 0` -/
def terminateLine : Shell Unit := do
  let length ← getLocal f .length
  writeBuffer f length 0

/-- The locals that the commands assign. -/
def commandLocals : List Local :=
  [.handled, .historyIndex, .ticks, .acpiTestResult, .passed, .contentionResult, .atomicResult, .cpuIndex]

/-- An assignment of a command to one of its locals. -/
structure CommandWrite where
  target : Local
  value : Int
  ofCommand : target ∈ commandLocals
  fits : InWord value

def runCommands : List CommandWrite → Shell Unit
  | [] => pure ()
  | w :: ws => do
      setLocal f w.target w.value
      runCommands ws

/-- `if length > 0 { … }` behind the commands. -/
def saveHistory : Shell Unit := do
  let length ← getLocal f .length
  if length > 0 then do
    setLocal f .historySaveIndex 0
    saveLine f
    let length ← getLocal f .length
    let behind ← shellWord (180 + length)
    shellSet behind 0
    shellSet 178 length
  else pure ()

def enterKey (commands : List CommandWrite) : Shell Unit := do
  cursorToEnd f
  terminateLine f
  setLocal f .handled 0
  runCommands f commands
  saveHistory f
  setLocal f .length 0
  setLocal f .cursor 0
  writeBuffer f 0 0

def recallKey : Shell Unit := do
  let saved ← shellGet 178
  if saved > 0 then do
    countDown f .cursor
    let length ← getLocal f .length
    setLocal f .clearCount length
    countDown f .clearCount
    countDown f .length
    let saved ← shellGet 178
    setLocal f .length saved
    setLocal f .historyLoadIndex 0
    loadLine f
    terminateLine f
    let length ← getLocal f .length
    setLocal f .cursor length
  else pure ()

def leftKey : Shell Unit := do
  let cursor ← getLocal f .cursor
  if cursor > 0 then addLocal f .cursor (-1) else pure ()

def rightKey : Shell Unit := do
  let cursor ← getLocal f .cursor
  let length ← getLocal f .length
  if cursor < length then addLocal f .cursor 1 else pure ()

def deleteKey : Shell Unit := do
  let cursor ← getLocal f .cursor
  let length ← getLocal f .length
  if cursor < length then do
    setLocal f .deleteShift cursor
    shiftDown f .deleteShift (getLocal f .length)
    addLocal f .length (-1)
    terminateLine f
  else pure ()

def backspaceKey : Shell Unit := do
  let cursor ← getLocal f .cursor
  if cursor > 0 then do
    let start ← shellWord (cursor - 1)
    setLocal f .backspaceShift start
    shiftDown f .backspaceShift (do
      let length ← getLocal f .length
      shellWord (length - 1))
    addLocal f .length (-1)
    addLocal f .cursor (-1)
    terminateLine f
  else pure ()

def insertKey : Shell Unit := do
  let length ← getLocal f .length
  if length < 127 then do
    setLocal f .insertShift length
    shiftUp f
    let cursor ← getLocal f .cursor
    let character ← getLocal f .character
    writeBuffer f cursor character
    addLocal f .length 1
    terminateLine f
    addLocal f .cursor 1
  else pure ()

def handleCharacter (commands : List CommandWrite) : Shell Unit := do
  let character ← getLocal f .character
  if character = 13 ∨ character = 10 then enterKey f commands
  else if character = 257 then recallKey f
  else if character = 258 then leftKey f
  else if character = 259 then rightKey f
  else if character = 261 then countDown f .cursor
  else if character = 262 then cursorToEnd f
  else if character = 260 then deleteKey f
  else if character = 8 ∨ character = 127 then backspaceKey f
  else if character ≥ 32 ∧ character ≠ 127 then insertKey f
  else pure ()

/-- What a turn of the outer loop polls, and what the commands do if it ends a line. -/
structure KeyEvent where
  character : Int
  commands : List CommandWrite
  polled : -1 ≤ character ∧ character ≤ 262 ∧ character ≠ 256

/-- `while 1 == 1 { … }` -/
def shellTurn (event : KeyEvent) : Shell Unit := do
  setLocal f .character event.character
  let character ← getLocal f .character
  if character < 0 then pure ()
  else do
    handleCharacter f event.commands
    setLocal f .character (-1)

/-- `shell_run` up to its loop; `text` is the address of the empty string. -/
def shellSetUp (text : Int) : Shell Unit := do
  setLocal f .buffer text
  setLocal f .buffer f.line
  setLocal f .length 0
  setLocal f .cursor 0
  setLocal f .character (-1)
  setLocal f .handled 0

/-! ## The editor it should be -/

/-- The key of a character. -/
def keyOf (character : Int) : Option (EditKey UInt8) :=
  if character = 13 ∨ character = 10 then some .enter
  else if character = 257 then some .recallLine
  else if character = 258 then some .left
  else if character = 259 then some .right
  else if character = 261 then some .toStart
  else if character = 262 then some .toEnd
  else if character = 260 then some .delete
  else if character = 8 ∨ character = 127 then some .backspace
  else if character ≥ 32 then some (.char (UInt8.ofInt character))
  else none

abbrev Editor := LineEditor UInt8 127

def Editor.turn (e : Editor) (event : KeyEvent) : Editor :=
  match keyOf event.character with
  | some key => e.press key
  | none => e

/-- The frame and the saved line are those of the editor, and no local has been overwritten. -/
structure Matches (s : ShellState) (e : Editor) : Prop where
  length : u64At s.memory (f.slot .length) = e.line.length
  cursor : u64At s.memory (f.slot .cursor) = e.cursor
  text : ∀ (i : Nat) c, e.line[i]? = some c → s.memory (f.line + i) = c
  terminator : s.memory (f.line + e.line.length) = 0
  historyLength : s.slots 178 = e.history.length
  history : ∀ (i : Nat) c, e.history[i]? = some c → s.slots (180 + i) = c.toNat
  intact : s.clobbered = false

/-- After every event the frame is that of the editor. -/
def Tracks : List KeyEvent → ShellState → Editor → Prop
  | [], _, _ => True
  | event :: events, s, e =>
      ∃ t, shellTurn f event s = .ok ((), t) ∧ Matches f t (e.turn event) ∧ Tracks events t (e.turn event)

end Vnt.Os

/-!
## Locals and the first bytes of the buffer

The eighteen locals fill the words from `rbp - 144` up, so that only the first sixteen bytes of the buffer belong to no
local. A frame is `Calm` as long as no local has changed through the buffer: then it is a `Desk`, locals on one side and
text on the other, and every operation of the editor is an update of one of the two. The seventeenth byte is the lowest of
the `shift_index` of insertion. As long as that is zero it can be taken for the terminator of a line.
-/

namespace Vnt.Os

open Lib

variable {f : Frame} {s t : ShellState} {x y : Local} {v : Int} {k n : Nat}

/-! ## Words -/

/-- A local holds any word. -/
theorem u64At_store_word (mem : Memory) (address : Int) (h : InWord v) : u64At (store mem address 8 v) address = v := by
  obtain ⟨hlow, hhigh⟩ := h
  have hpow : (256 : Int) ^ 8 = 18446744073709551616 := by decide
  rw [u64At, bytesAt_store, hpow]
  unfold signed
  split <;> omega

/-! ## Where things are -/

theorem index_lt (x : Local) : x.index < 18 := by
  cases x <;> decide

theorem index_injective (h : x.index = y.index) : x = y := by
  cases x <;> cases y <;> first | rfl | exact absurd h (by decide)

theorem slot_low (f : Frame) (x : Local) : f.line + 16 ≤ f.slot x := by
  have hlt := index_lt x
  unfold Frame.line Frame.slot
  omega

theorem slot_apart (f : Frame) (h : x ≠ y) : f.slot x + 8 ≤ f.slot y ∨ f.slot y + 8 ≤ f.slot x := by
  have hne : x.index ≠ y.index := fun heq => h (index_injective heq)
  unfold Frame.slot
  omega

/-- The lowest byte of the last local that was collected. -/
theorem slot_insertShift (f : Frame) : f.slot .insertShift = f.line + 16 := by
  have hindex : Local.insertShift.index = 17 := by decide
  unfold Frame.slot Frame.line
  rw [hindex]
  omega

theorem u64At_low (mem : Memory) (address : Int) : ((mem address).toNat : Int) = u64At mem address % 256 := by
  have hlt := (mem address).toNat_lt
  have hsplit : bytesAt mem address 8 = (mem address).toNat + 256 * bytesAt mem (address + 1) 7 := rfl
  rw [u64At, hsplit]
  unfold signed
  split <;> omega

/-- The free bytes of the buffer are in no local. -/
theorem text_free (f : Frame) (hk : k < 16) : ¬InSlot f (f.line + k) := by
  rintro ⟨x, -, hlow, -⟩
  have hslot := slot_low f x
  omega

/-! ## The desk -/

/-- What a calm frame holds. -/
structure Desk where
  locals : Local → Int
  text : Nat → UInt8
  slots : Slots

namespace Desk

def setLocal (d : Desk) (x : Local) (v : Int) : Desk := { d with locals := Function.update d.locals x v }

def put (d : Desk) (k : Nat) (c : UInt8) : Desk := { d with text := Function.update d.text k c }

@[simp] theorem setLocal_text (d : Desk) (x : Local) (v : Int) : (d.setLocal x v).text = d.text := rfl

@[simp] theorem setLocal_slots (d : Desk) (x : Local) (v : Int) : (d.setLocal x v).slots = d.slots := rfl

@[simp] theorem setLocal_self (d : Desk) (x : Local) (v : Int) : (d.setLocal x v).locals x = v := by
  show Function.update d.locals x v x = v
  rw [Function.update_self]

theorem setLocal_ne (d : Desk) (v : Int) (h : y ≠ x) : (d.setLocal x v).locals y = d.locals y := by
  show Function.update d.locals x v y = _
  rw [Function.update_of_ne h]

@[simp] theorem put_locals (d : Desk) (k : Nat) (c : UInt8) : (d.put k c).locals = d.locals := rfl

@[simp] theorem put_slots (d : Desk) (k : Nat) (c : UInt8) : (d.put k c).slots = d.slots := rfl

@[simp] theorem put_self (d : Desk) (k : Nat) (c : UInt8) : (d.put k c).text k = c := by
  show Function.update d.text k c k = c
  rw [Function.update_self]

theorem put_ne (d : Desk) (c : UInt8) (h : n ≠ k) : (d.put k c).text n = d.text n := by
  show Function.update d.text k c n = _
  rw [Function.update_of_ne h]

end Desk

/-- Byte `k` of the buffer can stand for character `k` of the text. -/
def Desk.Shows (d : Desk) (k : Nat) : Prop := k < 16 ∨ k = 16 ∧ d.locals .insertShift % 256 = 0 ∧ d.text 16 = 0

variable {d : Desk}

theorem Desk.Shows.le (h : d.Shows k) : k ≤ 16 := by
  rcases h with hlt | ⟨heq, -⟩
  · exact Nat.le_of_lt hlt
  · exact Nat.le_of_eq heq

/-- The frame is the desk. -/
structure Calm (f : Frame) (s : ShellState) (d : Desk) : Prop where
  locals : ∀ x, u64At s.memory (f.slot x) = d.locals x
  pointer : d.locals .buffer = f.line
  text : ∀ k : Nat, k < 16 → s.memory (f.line + k) = d.text k
  slots : s.slots = d.slots
  intact : s.clobbered = false

theorem getLocal_run (h : Calm f s d) (x : Local) : getLocal f x s = .ok (d.locals x, s) := by
  rw [← h.locals x]
  rfl

theorem shellWord_run (h : InWord v) : shellWord v s = .ok (v, s) := by
  rw [shellWord, if_pos h]
  rfl

theorem setLocal_calm (h : Calm f s d) (hx : x ≠ .buffer) (hv : InWord v) :
    Prog.Sat (setLocal f x v) s fun _ t => Calm f t (d.setLocal x v) := by
  apply Prog.Sat.modify
  constructor
  · intro y
    by_cases hy : y = x
    · rw [hy, Desk.setLocal_self]
      exact u64At_store_word _ _ hv
    · rw [Desk.setLocal_ne d v hy, ← h.locals y]
      apply u64At_congr
      intro a hlow hhigh
      apply store_other
      rcases slot_apart f hy with hapart | hapart
      · exact Or.inl (by omega)
      · exact Or.inr (by omega)
  · rw [Desk.setLocal_ne d v (Ne.symm hx)]
    exact h.pointer
  · intro k hk
    have hslot := slot_low f x
    rw [Desk.setLocal_text, ← h.text k hk]
    apply store_other
    exact Or.inl (by omega)
  · exact h.slots
  · exact h.intact

/-- The word behind a sum that does not overflow. -/
theorem addLocal_calm (h : Calm f s d) (hx : x ≠ .buffer) (z : Int) (hv : InWord (d.locals x + z)) :
    Prog.Sat (addLocal f x z) s fun _ t => Calm f t (d.setLocal x (d.locals x + z)) := by
  apply Prog.Sat.step (getLocal_run h x)
  apply Prog.Sat.step (shellWord_run hv)
  exact setLocal_calm h hx hv

theorem Calm.shows (h : Calm f s d) (hk : d.Shows k) : s.memory (f.line + k) = d.text k := by
  rcases hk with hlt | ⟨rfl, hlow, htext⟩
  · exact h.text k hlt
  · have hbyte := u64At_low s.memory (f.slot .insertShift)
    rw [h.locals, hlow, slot_insertShift] at hbyte
    have hzero : (s.memory (f.line + 16)).toNat = 0 := by exact_mod_cast hbyte
    rw [htext]
    exact UInt8.toNat_inj.mp hzero

theorem bufferAddress_run (h : Calm f s d) (hk : k ≤ 16) : bufferAddress f k s = .ok (f.line + k, s) := by
  have habove := f.above
  have hmapped := f.mapped
  have hend : memoryEnd = 1073741824 := rfl
  have heffective : (f.line + (k : Int)) % 18446744073709551616 = f.line + k := by
    unfold Frame.line
    omega
  have hroom : f.line + (k : Int) + 1 ≤ memoryEnd := by
    unfold Frame.line
    omega
  unfold bufferAddress
  rw [Prog.bind_run_ok (getLocal_run h .buffer), h.pointer, heffective, if_pos hroom]
  rfl

theorem readByte_run (a : Int) (s : ShellState) : readByte a s = .ok (((s.memory a).toNat : Int), s) := rfl

theorem readBuffer_eq (f : Frame) (index : Int) : readBuffer f index = (do
    let a ← bufferAddress f index
    readByte a) := rfl

theorem readBuffer_run (h : Calm f s d) (hk : d.Shows k) : readBuffer f k s = .ok (((d.text k).toNat : Int), s) := by
  rw [readBuffer_eq, Prog.bind_run_ok (bufferAddress_run h hk.le), readByte_run, h.shows hk]

theorem writeBuffer_calm (h : Calm f s d) (hk : k < 16) (v : Int) :
    Prog.Sat (writeBuffer f k v) s fun _ t => Calm f t (d.put k (UInt8.ofInt v)) := by
  apply Prog.Sat.step (bufferAddress_run h (Nat.le_of_lt hk))
  apply Prog.Sat.modify
  constructor
  · intro x
    have hslot := slot_low f x
    rw [Desk.put_locals, ← h.locals x]
    apply u64At_congr
    intro a hlow hhigh
    exact Function.update_of_ne (by omega) _ _
  · exact h.pointer
  · intro n hn
    by_cases hnk : n = k
    · rw [hnk, Desk.put_self]
      exact Function.update_self _ _ _
    · rw [Desk.put_ne d _ hnk, ← h.text n hn]
      exact Function.update_of_ne (by omega) _ _
  · exact h.slots
  · show (s.clobbered || decide _) = false
    rw [h.intact, Bool.false_or, decide_eq_false_iff_not]
    exact fun hslot => text_free f hk hslot.1

/-- A terminator in the byte of a local that is zero already. -/
theorem writeBuffer_edge (h : Calm f s d) (hlow : d.locals .insertShift % 256 = 0) :
    Prog.Sat (writeBuffer f (16 : Nat) 0) s fun _ t => Calm f t (d.put 16 0) := by
  have hput : Calm f s (d.put 16 0) :=
    ⟨h.locals, h.pointer, fun k hk => by rw [Desk.put_ne d 0 (by omega), h.text k hk], h.slots, h.intact⟩
  have hbyte : s.memory (f.line + (16 : Nat)) = UInt8.ofInt 0 := hput.shows (Or.inr ⟨rfl, hlow, Desk.put_self d 16 0⟩)
  apply Prog.Sat.step (bufferAddress_run h (Nat.le_refl 16))
  apply Prog.Sat.modify
  have hsame : Function.update s.memory (f.line + (16 : Nat)) (UInt8.ofInt 0) = s.memory := by
    rw [← hbyte, Function.update_eq_self]
  refine ⟨?_, hput.pointer, ?_, hput.slots, ?_⟩
  · intro x
    show u64At (Function.update s.memory (f.line + (16 : Nat)) (UInt8.ofInt 0)) (f.slot x) = _
    rw [hsame]
    exact hput.locals x
  · intro k hk
    show Function.update s.memory (f.line + (16 : Nat)) (UInt8.ofInt 0) (f.line + k) = _
    rw [hsame]
    exact hput.text k hk
  · show (s.clobbered || decide _) = false
    rw [h.intact, Bool.false_or, decide_eq_false_iff_not]
    exact fun hslot => hslot.2 hbyte

end Vnt.Os
