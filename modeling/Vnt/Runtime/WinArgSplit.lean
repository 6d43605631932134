import Vnt.Runtime.WinArg

/-!
# `Runtime.WinArgSplit` — the arguments that the started program sees

The rules of the Microsoft C runtime, as functions of their own: blanks outside quotes separate arguments; before a double
quote `2n` backslashes stand for `n` and the quote opens or closes, `2n + 1` stand for `n` and the quote is itself; other
backslashes are themselves. Newer runtimes read a doubled quote between quotes as one quote, and all of them cut the program
name off with simpler rules; the line that `append_win_arg` writes means the same to each of them.
-/

namespace Vnt.Runtime

open Lib (Buffer)
open Net (Bytes sizeMax space tab)

def isBlank (c : UInt8) : Bool := c = space ∨ c = tab

/-- One argument and what is left of the line, after `slashes` backslashes; `doubled` is the rule of the newer runtimes. -/
@[simp] def splitArg (doubled : Bool) : Bool → Nat → Bytes → Bytes → Bytes × Bytes
  | _, slashes, arg, [] => (arg ++ List.replicate slashes backslash, [])
  | inQuotes, slashes, arg, c :: line =>
      if c = backslash then splitArg doubled inQuotes (slashes + 1) arg line
      else if c = doubleQuote then
        if slashes % 2 = 1 then
          splitArg doubled inQuotes 0 (arg ++ List.replicate (slashes / 2) backslash ++ [doubleQuote]) line
        else
          match line with
          | [] => (arg ++ List.replicate (slashes / 2) backslash, [])
          | d :: line =>
              if doubled ∧ inQuotes ∧ d = doubleQuote then
                splitArg doubled inQuotes 0 (arg ++ List.replicate (slashes / 2) backslash ++ [doubleQuote]) line
              else splitArg doubled (!inQuotes) 0 (arg ++ List.replicate (slashes / 2) backslash) (d :: line)
      else if isBlank c ∧ inQuotes = false then (arg ++ List.replicate slashes backslash, c :: line)
      else splitArg doubled inQuotes 0 (arg ++ List.replicate slashes backslash ++ [c]) line

/-- Every argument takes a character at least, so there are no more arguments than characters. -/
def splitArgs (doubled : Bool) : Nat → Bytes → List Bytes
  | 0, _ => []
  | n + 1, line =>
      match line.dropWhile isBlank with
      | [] => []
      | c :: line =>
          let (arg, rest) := splitArg doubled false 0 [] (c :: line)
          arg :: splitArgs doubled n rest

def splitLine (doubled : Bool) (line : Bytes) : List Bytes := splitArgs doubled line.length line

/-- The program name: quotes keep blanks together, and a backslash is a backslash. -/
def splitProgram : Bool → Bytes → Bytes × Bytes
  | _, [] => ([], [])
  | inQuotes, c :: line =>
      if c = doubleQuote then splitProgram (!inQuotes) line
      else if isBlank c ∧ inQuotes = false then ([], c :: line)
      else
        let (name, rest) := splitProgram inQuotes line
        (c :: name, rest)

/-- The arguments after the program name. -/
def argumentsOf (doubled : Bool) (line : Bytes) : List Bytes :=
  let (_, rest) := splitProgram false line
  splitLine doubled rest

variable {doubled : Bool} {arg : CString} {got rest : Bytes} {slashes n : Nat}

/-! ## One argument -/

/-- The end of the line, or the blank before the next argument. -/
def Separated (rest : Bytes) : Prop := rest = [] ∨ ∃ line, rest = space :: line

theorem splitArg_backslashes (inQuotes : Bool) (n : Nat) : ∀ {slashes : Nat},
    splitArg doubled inQuotes slashes got (List.replicate n backslash ++ rest) =
      splitArg doubled inQuotes (slashes + n) got rest := by
  induction n with
  | zero =>
      intro slashes
      rfl
  | succ n ih =>
      intro slashes
      rw [List.replicate_succ, List.cons_append, splitArg.eq_def]
      dsimp only
      rw [if_pos rfl, ih, Nat.add_assoc, Nat.add_comm 1 n]

/-- The quote that opens an argument. -/
theorem splitArg_open (h : rest ≠ []) :
    splitArg doubled false 0 got (doubleQuote :: rest) = splitArg doubled true 0 got rest := by
  obtain ⟨d, line, rfl⟩ := List.exists_cons_of_ne_nil h
  rw [splitArg.eq_def]
  dsimp only
  rw [if_neg (by decide), if_pos rfl, if_neg (by decide), if_neg (fun h => Bool.false_ne_true h.2.1), List.replicate_zero,
    List.append_nil, Bool.not_false]

/-- The quote that closes it, behind twice as many backslashes as are meant. -/
theorem splitArg_close (h : Separated rest) (n : Nat) :
    splitArg doubled true (n * 2) got (doubleQuote :: rest) = (got ++ List.replicate n backslash, rest) := by
  rw [splitArg.eq_def]
  dsimp only
  rw [if_neg (by decide), if_pos rfl, if_neg (by omega), Nat.mul_div_cancel n Nat.zero_lt_two]
  rcases h with rfl | ⟨line, rfl⟩
  · rfl
  · dsimp only
    rw [if_neg (fun h => absurd h.2.2 (by decide)), splitArg.eq_def]
    dsimp only
    rw [if_neg (by decide), if_neg (by decide), if_pos ⟨rfl, rfl⟩, List.replicate_zero, List.append_nil]

/-- A quote that is itself, behind one backslash more. -/
theorem splitArg_literal (inQuotes : Bool) (n : Nat) : splitArg doubled inQuotes (n * 2 + 1) got (doubleQuote :: rest) =
    splitArg doubled inQuotes 0 (got ++ List.replicate n backslash ++ [doubleQuote]) rest := by
  have hhalf : (n * 2 + 1) / 2 = n := by omega
  rw [splitArg.eq_def]
  dsimp only
  rw [if_neg (by decide), if_pos rfl, if_pos (by omega), hhalf]

theorem splitArg_char {c : UInt8} (hslash : c ≠ backslash) (hquote : c ≠ doubleQuote) :
    splitArg doubled true slashes got (c :: rest) =
      splitArg doubled true 0 (got ++ List.replicate slashes backslash ++ [c]) rest := by
  rw [splitArg.eq_def]
  dsimp only
  rw [if_neg hslash, if_neg hquote, if_neg (fun h => Bool.false_ne_true h.2.symm)]

/-- The writer's backslashes that are not written yet are those that the reader has not yet read. -/
theorem splitArg_quoted (hrest : Separated rest) (s : Bytes) : ∀ {n : Nat} {got : Bytes},
    splitArg doubled true 0 got (quoted n s ++ doubleQuote :: rest) = (got ++ List.replicate n backslash ++ s, rest) := by
  induction s with
  | nil =>
      intro n got
      rw [quoted, splitArg_backslashes, Nat.zero_add, splitArg_close hrest, List.append_nil]
  | cons c s ih =>
      intro n got
      rw [quoted]
      by_cases hslash : c = backslash
      · rw [if_pos hslash, ih, hslash, List.replicate_succ', List.append_assoc, List.append_assoc, List.append_assoc]
        rfl
      · rw [if_neg hslash]
        by_cases hquote : c = doubleQuote
        · rw [if_pos hquote, List.append_assoc, splitArg_backslashes, Nat.zero_add, List.cons_append, splitArg_literal, ih,
            hquote, List.replicate_zero, List.append_nil, List.append_assoc _ [doubleQuote]]
          rfl
        · rw [if_neg hquote, List.append_assoc, splitArg_backslashes, Nat.zero_add, List.cons_append,
            splitArg_char hslash hquote, ih, List.replicate_zero, List.append_nil, List.append_assoc _ [c]]
          rfl

theorem splitArg_argText (arg : CString) (hrest : Separated rest) :
    splitArg doubled false 0 [] (argText arg ++ rest) = (arg.bytes, rest) := by
  rw [argText, List.append_assoc, List.cons_append, List.singleton_append,
    splitArg_open (List.append_ne_nil_of_right_ne_nil _ (List.cons_ne_nil _ _)), splitArg_quoted hrest]
  rfl

/-! ## The line -/

/-- The arguments, each behind a blank. -/
def argsText (args : List CString) : Bytes := args.flatMap fun arg => space :: argText arg

theorem argsText_separated (args : List CString) : Separated (argsText args) := by
  cases args with
  | nil => exact Or.inl rfl
  | cons arg args => exact Or.inr ⟨_, rfl⟩

theorem argsText_length (args : List CString) : args.length ≤ (argsText args).length := by
  induction args with
  | nil => exact Nat.le_refl 0
  | cons arg args ih =>
      have hcons : argsText (arg :: args) = space :: (argText arg ++ argsText args) := rfl
      rw [hcons, List.length_cons, List.length_cons, List.length_append]
      omega

theorem splitArgs_argText (arg : CString) (hrest : Separated rest) (n : Nat) :
    splitArgs doubled (n + 1) (argText arg ++ rest) = arg.bytes :: splitArgs doubled n rest := by
  have hsplit := @splitArg_argText doubled rest arg hrest
  have hcons : argText arg ++ rest = doubleQuote :: (quoted 0 arg.bytes ++ [doubleQuote] ++ rest) := rfl
  have hfirst : isBlank doubleQuote = false := by decide
  rw [hcons] at hsplit ⊢
  rw [splitArgs, List.dropWhile_cons_of_neg (by rw [hfirst]; exact Bool.false_ne_true)]
  show (let (arg, rest) := splitArg doubled false 0 [] _; arg :: splitArgs doubled n rest) = _
  rw [hsplit]

theorem splitArgs_argsText (args : List CString) : ∀ {n : Nat}, args.length ≤ n →
    splitArgs doubled n (argsText args) = args.map CString.bytes := by
  induction args with
  | nil =>
      intro n _
      cases n with
      | zero => rfl
      | succ n => rfl
  | cons arg args ih =>
      intro n hn
      obtain ⟨n, rfl⟩ : ∃ m, n = m + 1 := ⟨n - 1, by rw [List.length_cons] at hn; omega⟩
      have hskip : splitArgs doubled (n + 1) (argsText (arg :: args)) =
          splitArgs doubled (n + 1) (argText arg ++ argsText args) := rfl
      rw [hskip, splitArgs_argText arg (argsText_separated args), ih (Nat.le_of_succ_le_succ hn)]
      rfl

/-- What `vnt_process_start` writes, split by the rules. -/
theorem splitLine_commandLine (exe : CString) (args : List CString) :
    splitLine doubled (argText exe ++ argsText args) = exe.bytes :: args.map CString.bytes := by
  have hargs := argsText_length args
  obtain ⟨n, hn⟩ : ∃ n, (argText exe ++ argsText args).length = n + 1 :=
    ⟨(quoted 0 exe.bytes ++ [doubleQuote] ++ argsText args).length, rfl⟩
  have hroom : args.length ≤ n := by
    rw [List.length_append] at hn
    have hone : 1 ≤ (argText exe).length := Nat.succ_le_succ (Nat.zero_le _)
    omega
  rw [splitLine, hn, splitArgs_argText exe (argsText_separated args), splitArgs_argsText args hroom]

/-! ## The program name -/

theorem splitProgram_quoted (hrest : Separated rest) (t : Bytes) (h : doubleQuote ∉ t) :
    splitProgram true (t ++ doubleQuote :: rest) = (t, rest) := by
  induction t with
  | nil =>
      rw [List.nil_append, splitProgram, if_pos rfl]
      rcases hrest with rfl | ⟨line, rfl⟩
      · rfl
      · rfl
  | cons c t ih =>
      have hc : c ≠ doubleQuote := by
        rintro rfl
        exact h List.mem_cons_self
      rw [List.cons_append, splitProgram, if_neg hc, if_neg (fun hblank => Bool.false_ne_true hblank.2.symm),
        ih fun hmem => h (List.mem_cons_of_mem c hmem)]

theorem mem_quoted (s : Bytes) : ∀ {n : Nat}, doubleQuote ∈ quoted n s → doubleQuote ∈ s := by
  induction s with
  | nil =>
      intro n hmem
      rw [quoted] at hmem
      exact absurd (List.eq_of_mem_replicate hmem) (by decide)
  | cons c s ih =>
      intro n hmem
      rw [quoted] at hmem
      by_cases hslash : c = backslash
      · rw [if_pos hslash] at hmem
        exact List.mem_cons_of_mem c (ih hmem)
      · rw [if_neg hslash] at hmem
        by_cases hquote : c = doubleQuote
        · rw [hquote]
          exact List.mem_cons_self
        · rw [if_neg hquote, List.mem_append, List.mem_cons] at hmem
          rcases hmem with hmem | heq | hmem
          · exact absurd (List.eq_of_mem_replicate hmem) (by decide)
          · exact absurd heq.symm hquote
          · exact List.mem_cons_of_mem c (ih hmem)

theorem argumentsOf_commandLine (exe : CString) (args : List CString) (h : doubleQuote ∉ exe.bytes) :
    argumentsOf doubled (argText exe ++ argsText args) = args.map CString.bytes := by
  have hline : argText exe ++ argsText args = doubleQuote :: (quoted 0 exe.bytes ++ doubleQuote :: argsText args) := by
    rw [argText, List.cons_append, List.cons_append, List.append_assoc, List.singleton_append]
  have hname := splitProgram_quoted (argsText_separated args) _ fun hmem => h (mem_quoted exe.bytes (n := 0) hmem)
  have hopen : splitProgram false (argText exe ++ argsText args) = (quoted 0 exe.bytes, argsText args) := by
    rw [hline, splitProgram, if_pos rfl]
    exact hname
  rw [argumentsOf, hopen]
  exact splitArgs_argsText args (argsText_length args)

/-! ## The round trip -/

/-- The room that the whole line takes. -/
def lineNeed (exe : CString) (args : List CString) : Nat := argNeed exe + (args.map argNeed).sum

theorem argText_length (arg : CString) : (argText arg).length + 1 ≤ argNeed arg := by
  have hworst := quoted_length arg.bytes 0
  have hlen : (argText arg).length = (quoted 0 arg.bytes).length + 2 := by
    rw [argText, List.length_append, List.length_cons]
    rfl
  rw [hlen, argNeed]
  omega

/-- The line as it grows. -/
theorem foldlM_appendWinArg (args : List CString) : ∀ {cmd : Buffer UInt8}, cmd.text.length ≠ 0 →
    (∃ cmd', args.foldlM appendWinArg cmd = .ok cmd' ∧ cmd'.text = cmd.text ++ argsText args) ∨
    (∃ e, (e = .argumentTooLarge ∨ e = .lineTooLarge) ∧ args.foldlM appendWinArg cmd = .error e ∧
      sizeMax ≤ cmd.text.length + (args.map argNeed).sum) := by
  induction args with
  | nil =>
      intro cmd _
      exact Or.inl ⟨cmd, rfl, (List.append_nil _).symm⟩
  | cons arg args ih =>
      intro cmd hne
      rw [List.foldlM_cons, List.map_cons, List.sum_cons]
      rcases appendWinArg_cases cmd arg with ⟨cmd₁, happend, htext⟩ | ⟨e, he, herror, hsize⟩
      · have hgap : gap cmd.text = [space] := if_pos hne
        rw [hgap, List.singleton_append] at htext
        have hlen := congrArg List.length htext
        rw [List.length_append, List.length_cons] at hlen
        have hneed := argText_length arg
        rw [happend]
        rcases @ih cmd₁ (by omega) with ⟨cmd₂, hfold, htext₂⟩ | ⟨e, he, hfold, hsize⟩
        · refine Or.inl ⟨cmd₂, hfold, ?_⟩
          rw [htext₂, htext, List.append_assoc]
          rfl
        · exact Or.inr ⟨e, he, hfold, by omega⟩
      · rw [herror]
        exact Or.inr ⟨e, he, rfl, by omega⟩

/-- The started program sees the arguments; no write leaves the allocation, and only a line that is larger than any object
stops the run. -/
theorem commandLine_round_trip (exe : CString) (args : List CString) :
    (∃ line, commandLine exe args = .ok line ∧ ∀ doubled,
      splitLine doubled line = exe.bytes :: args.map CString.bytes ∧
      (doubleQuote ∉ exe.bytes → argumentsOf doubled line = args.map CString.bytes)) ∨
    (∃ e, (e = .argumentTooLarge ∨ e = .lineTooLarge) ∧ commandLine exe args = .error e ∧
      sizeMax ≤ lineNeed exe args) := by
  unfold commandLine lineNeed
  rcases appendWinArg_cases ⟨[], 0, Nat.le_refl 0⟩ exe with ⟨cmd₁, happend, htext⟩ | ⟨e, he, herror, hsize⟩
  · have htext₁ : cmd₁.text = argText exe := htext
    have hlen := congrArg List.length htext₁
    have hneed := argText_length exe
    have hne : cmd₁.text.length ≠ 0 := by
      rw [htext₁]
      exact Nat.succ_ne_zero _
    rw [happend]
    rcases foldlM_appendWinArg args hne with ⟨cmd₂, hfold, htext₂⟩ | ⟨e, he, hfold, hsize⟩
    · refine Or.inl ⟨cmd₂.text, ?_, ?_⟩
      · show (args.foldlM appendWinArg cmd₁ >>= _) = _
        rw [hfold]
        rfl
      · intro doubled
        rw [htext₂, htext₁]
        exact ⟨splitLine_commandLine exe args, argumentsOf_commandLine exe args⟩
    · refine Or.inr ⟨e, he, ?_, by omega⟩
      show (args.foldlM appendWinArg cmd₁ >>= _) = _
      rw [hfold]
      rfl
  · rw [herror]
    refine Or.inr ⟨e, he, rfl, ?_⟩
    have hzero : ([] : Bytes).length = 0 := rfl
    show sizeMax ≤ _
    have hsize' : sizeMax ≤ 0 + argNeed exe := hsize
    omega

end Vnt.Runtime
