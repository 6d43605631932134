import Vnt.Vnx.Grammar

/-!
# `Vnx.Execute` — the execution of a VNX program (`interpreter.vnt`)

`execute` walks over the program list with an environment that is a list too, looks every label up from the front, and gives
up after 100000 instructions. The machine it is to be is `Step`: an index into the program, a map from names to values, the
output and what is still to be typed.
-/

namespace Vnt.Vnx

open Lib (Turn loop)
open Net (Bytes ascii)
open StdLib (Hosted ok_bind)

/-! ## `execute` -/

/-- The globals, and the standard streams. `pc` is the program list from `pc` on; `typed` is what the calls of `input`
    return before there is no line left. -/
structure Machine where
  environment : List (Bytes × Bytes)
  pc : List Node
  halted : Bool
  failed : Bool
  steps : Nat
  printed : Bytes
  typed : List Bytes

/-- `execute` returns, or `input` has no line to read and ends the process. -/
inductive Ending where
  | returned (m : Machine)
  | stopped (m : Machine)

def Machine.print (m : Machine) (text : Bytes) : Machine := { m with printed := m.printed ++ text ++ [10] }

/-- `print(message)` and `failed = true`. -/
def Machine.fail (m : Machine) (message : Bytes) : Machine := { m.print message with failed := true }

def errorIn (n : Node) (what name : Bytes) : Bytes :=
  ascii "VNX runtime error at line " ++ ascii (toString n.line) ++ ascii ": unknown " ++ what ++ name

def limitError : Bytes := ascii "VNX runtime error: instruction limit exceeded"

def findValue : List (Bytes × Bytes) → Bytes → Option Bytes
  | [], _ => none
  | (key, value) :: next, name => if key = name then some value else findValue next name

/-- `e.value = value`, for the first `e` of that name. -/
def setValue (name value : Bytes) : List (Bytes × Bytes) → List (Bytes × Bytes)
  | [] => []
  | (key, old) :: next => if key = name then (key, value) :: next else (key, old) :: setValue name value next

def storeValue (name value : Bytes) (environment : List (Bytes × Bytes)) : List (Bytes × Bytes) :=
  match findValue environment name with
  | none => (name, value) :: environment
  | some _ => setValue name value environment

def findLabel (name : Bytes) : List Node → Option (List Node)
  | [] => none
  | n :: next => if n.kind = .label ∧ n.a = name then some (n :: next) else findLabel name next

/-- `dest = find_label(name)` and what follows it. -/
def Machine.jumpTo (program : List Node) (n : Node) (name : Bytes) (m : Machine) : Machine :=
  match findLabel name program with
  | none => m.fail (errorIn n (ascii "label ") name)
  | some dest => { m with pc := dest }

/-- The instruction `n`, with `next_pc` in `pc`. -/
def instruction (program : List Node) (n : Node) (m : Machine) : Except Machine Machine :=
  match n.kind with
  | .say => .ok (m.print n.a)
  | .sayVar =>
      match findValue m.environment n.a with
      | none => .ok (m.fail (errorIn n (ascii "variable ") n.a))
      | some value => .ok (m.print value)
  | .set => .ok { m with environment := storeValue n.a n.b m.environment }
  | .input =>
      -- the prompt is printed before a line is looked for
      match m.typed with
      | [] => .error { m with printed := m.printed ++ n.b }
      | answer :: typed =>
          .ok { m with environment := storeValue n.a answer m.environment, printed := m.printed ++ n.b, typed := typed }
  | .when =>
      match findValue m.environment n.a with
      | none => .ok (m.fail (errorIn n (ascii "variable ") n.a))
      | some value => .ok (if value = n.b then m.jumpTo program n n.c else m)
  | .jump => .ok (m.jumpTo program n n.a)
  | .end => .ok { m with halted := true }
  | .label | .bad => .ok m

def limit : Nat := 100000

/-- A turn of `while pc.kind != "SENTINEL" && !halted && !failed`. -/
def executeTurn (program : List Node) (m : Machine) : Turn Machine Ending :=
  match m.pc with
  | [] => .done (.returned m)
  | n :: next =>
      if m.halted || m.failed then .done (.returned m)
      else if limit < m.steps + 1 then .next ({ m with steps := m.steps + 1 }.fail limitError)
      else
        match instruction program n { m with steps := m.steps + 1, pc := next } with
        | .ok m => .next m
        | .error m => .done (.stopped m)

def execute (turns : Nat) (program : List Node) (typed : List Bytes) : Hosted Ending :=
  loop .outOfClock (fun m => .ok (executeTurn program m)) turns ⟨[], program, false, false, 0, [], typed⟩

/-! ## The machine -/

structure Config where
  index : Nat
  values : Bytes → Option Bytes
  printed : Bytes
  typed : List Bytes

/-- The first label of that name. -/
def labelAt (program : List Node) (name : Bytes) : Option Nat :=
  program.findIdx? fun n => n.kind = .label ∧ n.a = name

inductive Step (program : List Node) (c : Config) : Config → Prop where
  | skip {n : Node} (hn : program[c.index]? = some n) (hkind : n.kind = .label ∨ n.kind = .bad) :
      Step program c { c with index := c.index + 1 }
  | say {n : Node} (hn : program[c.index]? = some n) (hkind : n.kind = .say) :
      Step program c { c with index := c.index + 1, printed := c.printed ++ n.a ++ [10] }
  | sayVar {n : Node} {value : Bytes} (hn : program[c.index]? = some n) (hkind : n.kind = .sayVar)
      (hvalue : c.values n.a = some value) :
      Step program c { c with index := c.index + 1, printed := c.printed ++ value ++ [10] }
  | set {n : Node} (hn : program[c.index]? = some n) (hkind : n.kind = .set) :
      Step program c { c with index := c.index + 1, values := Function.update c.values n.a (some n.b) }
  | input {n : Node} {answer : Bytes} {rest : List Bytes} (hn : program[c.index]? = some n)
      (hkind : n.kind = .input) (htyped : c.typed = answer :: rest) :
      Step program c ⟨c.index + 1, Function.update c.values n.a (some answer), c.printed ++ n.b, rest⟩
  | stay {n : Node} {value : Bytes} (hn : program[c.index]? = some n) (hkind : n.kind = .when)
      (hvalue : c.values n.a = some value) (hne : value ≠ n.b) : Step program c { c with index := c.index + 1 }
  | branch {n : Node} {i : Nat} (hn : program[c.index]? = some n) (hkind : n.kind = .when)
      (hvalue : c.values n.a = some n.b) (hlabel : labelAt program n.c = some i) : Step program c { c with index := i }
  | jump {n : Node} {i : Nat} (hn : program[c.index]? = some n) (hkind : n.kind = .jump)
      (hlabel : labelAt program n.a = some i) : Step program c { c with index := i }

/-- What stops the machine with an error. -/
inductive Faults (program : List Node) (c : Config) : Bytes → Prop where
  | variable {n : Node} (hn : program[c.index]? = some n) (hkind : n.kind = .sayVar ∨ n.kind = .when)
      (hvalue : c.values n.a = none) : Faults program c (errorIn n (ascii "variable ") n.a)
  | branch {n : Node} (hn : program[c.index]? = some n) (hkind : n.kind = .when)
      (hvalue : c.values n.a = some n.b) (hlabel : labelAt program n.c = none) :
      Faults program c (errorIn n (ascii "label ") n.c)
  | jump {n : Node} (hn : program[c.index]? = some n) (hkind : n.kind = .jump)
      (hlabel : labelAt program n.a = none) : Faults program c (errorIn n (ascii "label ") n.a)

/-- A run of so many steps from the beginning. -/
inductive Steps (program : List Node) (typed : List Bytes) : Nat → Config → Prop where
  | start : Steps program typed 0 ⟨0, fun _ => none, [], typed⟩
  | step {k : Nat} {c c' : Config} (h : Steps program typed k c) (hstep : Step program c c') : Steps program typed (k + 1) c'

/-- What a machine looks like. -/
def Machine.config (m : Machine) (i : Nat) : Config := ⟨i, findValue m.environment, m.printed, m.typed⟩

/-- How an execution ends, and what the machine is like then. -/
inductive Outcome (program : List Node) (typed : List Bytes) : Ending → Prop where
  /-- Behind the last statement. -/
  | ended {m : Machine} {i : Nat} (hsteps : Steps program typed m.steps (m.config i)) (hle : m.steps ≤ limit)
      (hi : program[i]? = none) (hfailed : m.failed = false) : Outcome program typed (.returned m)
  /-- At an `end`, which is an instruction too. -/
  | halted {m : Machine} {n : Node} {i k : Nat} (hsteps : Steps program typed k (m.config i)) (hlt : k < limit)
      (hn : program[i]? = some n) (hkind : n.kind = .end) (hfailed : m.failed = false) : Outcome program typed (.returned m)
  | failed {m : Machine} {c : Config} {k : Nat} {message : Bytes} (hsteps : Steps program typed k c)
      (hfailed : m.failed = true) (hprinted : m.printed = c.printed ++ message ++ [10])
      (hmessage : k < limit ∧ Faults program c message ∨
        k = limit ∧ c.index < program.length ∧ message = limitError) : Outcome program typed (.returned m)
  /-- At an `input` with nothing to read. -/
  | stopped {m : Machine} {c : Config} {n : Node} {k : Nat} (hsteps : Steps program typed k c) (hlt : k < limit)
      (hn : program[c.index]? = some n) (hkind : n.kind = .input) (htyped : c.typed = [])
      (hprinted : m.printed = c.printed ++ n.b) : Outcome program typed (.stopped m)

variable {program : List Node} {typed : List Bytes} {n : Node} {m m' : Machine} {next : List Node} {i : Nat}

theorem findValue_setValue (name value : Bytes) (environment : List (Bytes × Bytes))
    (h : findValue environment name ≠ none) : findValue (setValue name value environment) =
      Function.update (findValue environment) name (some value) := by
  induction environment with
  | nil => simp [findValue] at h
  | cons entry next ih =>
      obtain ⟨key, old⟩ := entry
      funext x
      by_cases hkey : key = name
      · by_cases hx : name = x <;> simp [setValue, findValue, hkey, hx, Function.update_apply, @eq_comm _ x name]
      · simp only [findValue, if_neg hkey] at h
        by_cases hx : x = name
        · simp [setValue, findValue, hkey, hx, ih h]
        · simp [setValue, findValue, hkey, hx, ih h]

/-- The environment is a map. -/
theorem findValue_storeValue (name value : Bytes) (environment : List (Bytes × Bytes)) :
    findValue (storeValue name value environment) =
      Function.update (findValue environment) name (some value) := by
  cases hfind : findValue environment name with
  | none =>
      funext x
      simp [storeValue, hfind, findValue, Function.update_apply, @eq_comm _ x name]
  | some old =>
      rw [storeValue, hfind]
      exact findValue_setValue name value environment (by simp [hfind])

theorem findLabel_eq (name : Bytes) (program : List Node) :
    findLabel name program = (labelAt program name).map program.drop := by
  induction program with
  | nil => rfl
  | cons n next ih =>
      rw [findLabel, labelAt, List.findIdx?_cons, ih]
      by_cases hn : n.kind = .label ∧ n.a = name
      · simp [hn]
      · simp [hn, labelAt, Function.comp_def]

theorem drop_succ (hdrop : program.drop i = n :: next) : program[i]? = some n ∧ program.drop (i + 1) = next := by
  constructor
  · rw [← List.head?_drop, hdrop]
    rfl
  · rw [← List.tail_drop, hdrop]
    rfl

theorem jumpTo_cases (program : List Node) (n : Node) (name : Bytes) (m : Machine) :
    (∃ j, labelAt program name = some j ∧ m.jumpTo program n name = { m with pc := program.drop j }) ∨
      labelAt program name = none ∧ m.jumpTo program n name = m.fail (errorIn n (ascii "label ") name) := by
  cases hlabel : labelAt program name with
  | none => exact .inr ⟨rfl, by rw [Machine.jumpTo, findLabel_eq, hlabel]; rfl⟩
  | some j => exact .inl ⟨j, rfl, by rw [Machine.jumpTo, findLabel_eq, hlabel]; rfl⟩

/-- What an instruction does: a step, the end, or an error. -/
theorem instruction_ok (hdrop : program.drop i = n :: m.pc) (h : instruction program n m = .ok m') :
    (∃ j, program.drop j = m'.pc ∧ Step program (m.config i) (m'.config j) ∧ m'.steps = m.steps ∧
        m'.halted = m.halted ∧ m'.failed = m.failed) ∨
      n.kind = .end ∧ m' = { m with halted := true } ∨
      ∃ message, Faults program (m.config i) message ∧ m' = m.fail message := by
  obtain ⟨hn, hnext⟩ := drop_succ hdrop
  rw [instruction] at h
  split at h
  case h_1 hkind =>
      cases h
      exact .inl ⟨i + 1, hnext, .say hn hkind, rfl, rfl, rfl⟩
  case h_2 hkind =>
      split at h
      · rename_i hvalue
        cases h
        exact .inr (.inr ⟨_, .variable hn (.inl hkind) hvalue, rfl⟩)
      · rename_i value hvalue
        cases h
        exact .inl ⟨i + 1, hnext, .sayVar hn hkind hvalue, rfl, rfl, rfl⟩
  case h_3 hkind =>
      cases h
      refine .inl ⟨i + 1, hnext, ?_, rfl, rfl, rfl⟩
      simp only [Machine.config, findValue_storeValue]
      exact .set hn hkind
  case h_4 hkind =>
      split at h
      · cases h
      · rename_i htyped
        cases h
        refine .inl ⟨i + 1, hnext, ?_, rfl, rfl, rfl⟩
        simp only [Machine.config, findValue_storeValue]
        exact .input hn hkind htyped
  case h_5 hkind =>
      split at h
      · rename_i hvalue
        cases h
        exact .inr (.inr ⟨_, .variable hn (.inr hkind) hvalue, rfl⟩)
      · rename_i value hvalue
        cases h
        by_cases heq : value = n.b
        · subst heq
          rw [if_pos rfl]
          obtain ⟨j, hlabel, hjump⟩ | ⟨hlabel, hjump⟩ := jumpTo_cases program n n.c m
          · exact .inl ⟨j, by rw [hjump], by rw [hjump]; exact .branch hn hkind hvalue hlabel, by simp [hjump]⟩
          · exact .inr (.inr ⟨_, .branch hn hkind hvalue hlabel, hjump⟩)
        · rw [if_neg heq]
          exact .inl ⟨i + 1, hnext, .stay hn hkind hvalue heq, rfl, rfl, rfl⟩
  case h_6 hkind =>
      cases h
      obtain ⟨j, hlabel, hjump⟩ | ⟨hlabel, hjump⟩ := jumpTo_cases program n n.a m
      · exact .inl ⟨j, by rw [hjump], by rw [hjump]; exact .jump hn hkind hlabel, by simp [hjump]⟩
      · exact .inr (.inr ⟨_, .jump hn hkind hlabel, hjump⟩)
  case h_7 hkind =>
      cases h
      exact .inr (.inl ⟨hkind, rfl⟩)
  case h_8 hkind =>
      cases h
      exact .inl ⟨i + 1, hnext, .skip hn (.inl hkind), rfl, rfl, rfl⟩
  case h_9 hkind =>
      cases h
      exact .inl ⟨i + 1, hnext, .skip hn (.inr hkind), rfl, rfl, rfl⟩

theorem instruction_error (h : instruction program n m = .error m') :
    n.kind = .input ∧ m.typed = [] ∧ m'.printed = m.printed ++ n.b := by
  rw [instruction] at h
  split at h <;> try split at h
  all_goals cases h
  exact ⟨‹_›, ‹_›, rfl⟩

/-- Between two turns: the machine mirrors a run, or the execution is over. -/
inductive Inv (program : List Node) (typed : List Bytes) (m : Machine) : Prop where
  | running {i : Nat} (hsteps : Steps program typed m.steps (m.config i)) (hle : m.steps ≤ limit)
      (hdrop : program.drop i = m.pc) (hhalted : m.halted = false) (hfailed : m.failed = false)
  | ended (hle : m.steps ≤ limit + 1) (hover : m.halted = true ∨ m.failed = true)
      (houtcome : Outcome program typed (.returned m))

theorem executeTurn_advances (h : Inv program typed m) : Lib.Advances (Inv program typed) (Outcome program typed)
    (fun m => limit + 2 - m.steps) m (executeTurn program m) := by
  have hend (hover : m.halted = true ∨ m.failed = true ∨ m.pc = []) (houtcome : Outcome program typed (.returned m)) :
      Lib.Advances (Inv program typed) (Outcome program typed) (fun m => limit + 2 - m.steps) m
        (executeTurn program m) := by
    have hdone : executeTurn program m = .done (.returned m) := by
      rw [executeTurn]
      split
      · rfl
      · rw [if_pos]
        simp_all
    rw [hdone]
    exact houtcome
  cases h with
  | ended hle hover houtcome => exact hend (hover.imp_right .inl) houtcome
  | @running i hsteps hle hdrop hhalted hfailed =>
      cases hpc : m.pc with
      | nil =>
          rw [hpc, List.drop_eq_nil_iff] at hdrop
          exact hend (.inr (.inr hpc)) (.ended hsteps hle (List.getElem?_eq_none hdrop) hfailed)
      | cons n next =>
          rw [hpc] at hdrop
          obtain ⟨hn, hnext⟩ := drop_succ hdrop
          simp only [executeTurn, hpc, hhalted, hfailed, Bool.or_self, Bool.false_eq_true, if_false]
          split
          · rename_i hlimit
            have heq : m.steps = limit := by omega
            refine ⟨.ended ?_ (.inr rfl) (.failed hsteps rfl rfl (.inr ⟨heq, ?_, rfl⟩)), ?_⟩
            · exact heq ▸ Nat.le_refl _
            · exact (List.getElem?_eq_some_iff.mp hn).1
            · simp only [Machine.fail, Machine.print]
              omega
          · rename_i hlimit
            have hlt : m.steps < limit := by omega
            split
            · rename_i m' hinstruction
              obtain ⟨j, hpc, hstep, hsteps', hsame⟩ | ⟨hkind, rfl⟩ | ⟨message, hfault, rfl⟩ :=
                instruction_ok hdrop hinstruction
              · refine ⟨.running (i := j) ?_ ?_ hpc hsame.1 hsame.2, ?_⟩
                · rw [hsteps']
                  exact .step hsteps hstep
                · rw [hsteps']
                  exact hlt
                · simp only [hsteps']
                  omega
              · exact ⟨.ended (by simp only; omega) (.inl rfl) (.halted hsteps hlt hn hkind rfl), by simp only; omega⟩
              · refine ⟨.ended ?_ (.inr rfl) (.failed hsteps rfl rfl (.inl ⟨hlt, hfault⟩)), ?_⟩
                all_goals
                  simp only [Machine.fail, Machine.print]
                  omega
            · rename_i m' hinstruction
              obtain ⟨hkind, htyped, hprinted⟩ := instruction_error hinstruction
              exact .stopped hsteps hlt hn hkind htyped hprinted

theorem execute_total (program : List Node) (typed : List Bytes) {turns : Nat} (hturns : limit + 2 < turns) :
    ∃ ending, execute turns program typed = .ok ending ∧ Outcome program typed ending :=
  Lib.loop_total (fun _ h => ⟨_, rfl, executeTurn_advances h⟩) turns
    (Inv.running (i := 0) .start (Nat.zero_le _) rfl rfl rfl) hturns

/-- What the script, `lex` and `parse` print, and how `execute` ends if it is called. -/
structure Result where
  messages : List Bytes
  ending : Option Ending

/-- The script behind `fs_read`. -/
def interpret (path source : Bytes) (typed : List Bytes) : Hosted Result :=
  if source = [] then pure ⟨[ascii "VNX error: could not read source file: " ++ path], none⟩
  else do
    let s ← lex source
    if s.failed then pure ⟨s.printed, none⟩
    else
      let p ← parseTokens s.tokens
      let messages := s.printed ++ p.printed
      if p.failed then pure ⟨messages, none⟩
      else
        let ending ← execute (limit + 3) p.program typed
        pure ⟨messages, some ending⟩

/-- The lines of `source` are statements, up to the word in `when`, and these are their nodes. -/
def Spells (source : Bytes) (program : List Node) : Prop :=
  source ≠ [] ∧ ∃ s, lex source = .ok s ∧ s.failed = false ∧ ReadAs (fun _ => True) (lines s.tokens) program

/-- What the interpreter makes of a source: the source is no program and nothing is executed, or it is one and is executed. -/
inductive Interpreted (source : Bytes) (typed : List Bytes) : Option Ending → Prop where
  | rejected (hnone : ∀ program, ¬Spells source program) : Interpreted source typed none
  | executed {program : List Node} {ending : Ending} (hspells : Spells source program)
      (honly : ∀ other, Spells source other → other = program) (houtcome : Outcome program typed ending) :
      Interpreted source typed (some ending)

theorem form_unique {keyword : Bytes → Prop} : Relator.RightUnique (Form keyword) := by
  intro l n n' h h'
  cases h <;> cases h' <;> simp_all [Token.IsWord] <;> grind [ascii]

end Vnt.Vnx
