import Vnt.Lib.Buffer
import Vnt.Lib.Loop
import Vnt.Runtime.BigInt

/-!
# `Runtime.WinArg` — the command line of a Windows process (`append_win_arg`)

Windows hands a process one string, which the started program cuts into arguments. `append_win_arg` puts an argument
between quotes; a backslash is doubled only where a quote follows, so the loop counts the backslashes that it has read and
not yet written. The buffer is allocated for the worst argument of that length before anything is written.
-/

namespace Vnt.Runtime

open Lib (Buffer Turn)
open Net (Bytes sizeMax space tab)

inductive WinArgError where
  | argumentTooLarge
  | lineTooLarge
  | outOfBounds
  | outOfClock
  deriving DecidableEq, Repr

def backslash : UInt8 := 92
def doubleQuote : UInt8 := 34

/-! ## Arithmetic on `size_t` -/

def sizeAdd (a b : Nat) : Nat := (a + b) % 2 ^ 64
def sizeMul (a b : Nat) : Nat := a * b % 2 ^ 64
def sizeSub (a b : Nat) : Nat := (a + 2 ^ 64 - b) % 2 ^ 64

/-! ## `append_win_arg` -/

/-- `while (nc < required) { … }` -/
def growTurn (required nc : Nat) : Except WinArgError (Turn Nat Nat) :=
  if nc < required then
    if nc > sizeMax / 2 then pure (.done required) else pure (.next (sizeMul nc 2))
  else pure (.done nc)

/-- `if (required > *cap) { … }` -/
def reserve (cmd : Buffer UInt8) (required : Nat) : Except WinArgError (Buffer UInt8) :=
  if required > cmd.cap then do
    let nc ← Lib.loop .outOfClock (growTurn required) (required + 1) (if cmd.cap ≠ 0 then cmd.cap else 128)
    cmd.realloc .outOfBounds nc
  else pure cmd

/-- `for (const char *s = arg; ; ++s) { … }` -/
def quoteChars : Bytes → Nat → Buffer UInt8 → Except WinArgError (Buffer UInt8)
  | [], slashes, cmd => Buffer.putTimes .outOfBounds backslash (slashes * 2) cmd
  | c :: s, slashes, cmd =>
      if c = backslash then quoteChars s (slashes + 1) cmd
      else if c = doubleQuote then do
        let cmd ← Buffer.putTimes .outOfBounds backslash (slashes * 2 + 1) cmd
        let cmd ← cmd.put .outOfBounds doubleQuote
        quoteChars s 0 cmd
      else do
        let cmd ← Buffer.putTimes .outOfBounds backslash slashes cmd
        let cmd ← cmd.put .outOfBounds c
        quoteChars s 0 cmd

/-- `if (*len) (*cmd)[(*len)++] = ' ';` -/
def putGap (cmd : Buffer UInt8) : Except WinArgError (Buffer UInt8) :=
  if cmd.text.length ≠ 0 then cmd.put .outOfBounds space else pure cmd

/-- What `append_win_arg` does once there is room. -/
def writeArg (cmd : Buffer UInt8) (arg : CString) : Except WinArgError (Buffer UInt8) := do
  let cmd ← putGap cmd
  let cmd ← cmd.put .outOfBounds doubleQuote
  let cmd ← quoteChars arg.bytes 0 cmd
  let cmd ← cmd.put .outOfBounds doubleQuote
  cmd.terminate .outOfBounds

/-- `size_t need = arg_len * 2 + 4;` -/
def quoteNeed (argLen : Nat) : Nat := sizeAdd (sizeMul argLen 2) 4

def appendWinArg (cmd : Buffer UInt8) (arg : CString) : Except WinArgError (Buffer UInt8) :=
  if arg.bytes.length > sizeSub sizeMax 4 / 2 then .error .argumentTooLarge
  else if cmd.text.length > sizeSub (sizeSub sizeMax (quoteNeed arg.bytes.length)) 1 then .error .lineTooLarge
  else do
    let cmd ← reserve cmd (sizeAdd (sizeAdd cmd.text.length (quoteNeed arg.bytes.length)) 1)
    writeArg cmd arg

theorem null_fits : ([] : Bytes).length ≤ 0 := Nat.le_refl 0

/-- The command line that `vnt_process_start` builds. -/
def commandLine (launchExe : CString) (arguments : List CString) : Except WinArgError Bytes := do
  let cmd ← appendWinArg ⟨[], 0, null_fits⟩ launchExe
  let cmd ← arguments.foldlM appendWinArg cmd
  pure cmd.text

/-! ## What it writes -/

/-- The characters of an argument behind `n` backslashes. -/
def quoted : Nat → Bytes → Bytes
  | n, [] => List.replicate (n * 2) backslash
  | n, c :: s =>
      if c = backslash then quoted (n + 1) s
      else if c = doubleQuote then List.replicate (n * 2 + 1) backslash ++ doubleQuote :: quoted 0 s
      else List.replicate n backslash ++ c :: quoted 0 s

def argText (arg : CString) : Bytes := doubleQuote :: quoted 0 arg.bytes ++ [doubleQuote]

/-- The room that `append_win_arg` asks for. -/
def argNeed (arg : CString) : Nat := 2 * arg.bytes.length + 4

variable {cmd cmd' : Buffer UInt8} {arg : CString} {required nc n : Nat}

/-- No character takes more than two. -/
theorem quoted_length (s : Bytes) : ∀ n, (quoted n s).length ≤ 2 * (n + s.length) := by
  induction s with
  | nil =>
      intro n
      rw [quoted, List.length_replicate, List.length_nil]
      omega
  | cons c s ih =>
      intro n
      rw [quoted, List.length_cons]
      by_cases hslash : c = backslash
      · rw [if_pos hslash]
        have hs := ih (n + 1)
        omega
      · rw [if_neg hslash]
        have hs := ih 0
        by_cases hquote : c = doubleQuote
        · rw [if_pos hquote, List.length_append, List.length_replicate, List.length_cons]
          omega
        · rw [if_neg hquote, List.length_append, List.length_replicate, List.length_cons]
          omega

theorem quoteChars_ok (s : Bytes) : ∀ {n : Nat} {cmd : Buffer UInt8}, cmd.text.length + (quoted n s).length ≤ cmd.cap →
    ∃ cmd', quoteChars s n cmd = .ok cmd' ∧ cmd.Extends (quoted n s) cmd' := by
  induction s with
  | nil =>
      intro n cmd hroom
      rw [quoted, List.length_replicate] at hroom
      rw [quoted]
      exact Buffer.putTimes_ok _ hroom
  | cons c s ih =>
      intro n cmd hroom
      rw [quoted] at hroom ⊢
      rw [quoteChars]
      by_cases hslash : c = backslash
      · rw [if_pos hslash] at hroom ⊢
        rw [if_pos hslash]
        exact ih hroom
      · rw [if_neg hslash] at hroom ⊢
        rw [if_neg hslash]
        -- Pending backslashes, one character, and the rest with nothing pending.
        have hpiece : ∀ k d, cmd.text.length + (List.replicate k backslash ++ d :: quoted 0 s).length ≤ cmd.cap →
            ∃ cmd', (do let cmd ← Buffer.putTimes WinArgError.outOfBounds backslash k cmd
                        let cmd ← cmd.put .outOfBounds d
                        quoteChars s 0 cmd) = .ok cmd' ∧
              cmd.Extends (List.replicate k backslash ++ d :: quoted 0 s) cmd' := by
          intro k d hk
          rw [List.length_append, List.length_replicate, List.length_cons] at hk
          obtain ⟨cmd₁, htimes, hext₁⟩ := @Buffer.putTimes_ok _ _ WinArgError.outOfBounds backslash k cmd (by omega)
          have hlen₁ := hext₁.length
          have hcap₁ := hext₁.cap
          rw [List.length_replicate] at hlen₁
          obtain ⟨cmd₂, hput, hext₂⟩ := @Buffer.put_ok _ _ WinArgError.outOfBounds d cmd₁ (by omega)
          have hlen₂ := hext₂.length
          have hcap₂ := hext₂.cap
          rw [List.length_singleton] at hlen₂
          obtain ⟨cmd₃, hrest, hext₃⟩ := @ih 0 cmd₂ (by omega)
          refine ⟨cmd₃, ?_, ?_⟩
          · rw [htimes]
            show (cmd₁.put _ d >>= _) = _
            rw [hput]
            exact hrest
          · apply hext₁.trans
            exact hext₂.trans hext₃
        by_cases hquote : c = doubleQuote
        · rw [if_pos hquote] at hroom ⊢
          rw [if_pos hquote]
          exact hpiece _ _ hroom
        · rw [if_neg hquote] at hroom ⊢
          rw [if_neg hquote]
          exact hpiece _ _ hroom

/-! ## The capacity -/

theorem grow_ok (hnc : 0 < nc) :
    ∃ cap, Lib.loop WinArgError.outOfClock (growTurn required) (required + 1) nc = .ok cap ∧ required ≤ cap := by
  apply @Lib.loop_total _ _ _ _ _ (fun nc => 0 < nc) (fun cap => required ≤ cap) (fun nc => required - nc) _ _ nc hnc
    (by omega)
  intro nc hpos
  unfold growTurn
  by_cases hless : nc < required
  · rw [if_pos hless]
    by_cases hbig : nc > sizeMax / 2
    · rw [if_pos hbig]
      exact ⟨.done required, rfl, Nat.le_refl required⟩
    · rw [if_neg hbig]
      have hdouble : sizeMul nc 2 = nc * 2 := by
        unfold sizeMul
        unfold sizeMax at hbig
        omega
      refine ⟨.next (sizeMul nc 2), rfl, ?_, ?_⟩
      · rw [hdouble]
        omega
      · show required - sizeMul nc 2 < required - nc
        omega
  · rw [if_neg hless]
    exact ⟨.done nc, rfl, Nat.not_lt.mp hless⟩

theorem reserve_ok (hroom : cmd.text.length ≤ required) :
    ∃ cmd', reserve cmd required = .ok cmd' ∧ cmd'.text = cmd.text ∧ required ≤ cmd'.cap := by
  unfold reserve
  by_cases hgrow : required > cmd.cap
  · rw [if_pos hgrow]
    have hstart : 0 < (if cmd.cap ≠ 0 then cmd.cap else 128) := by
      split <;> omega
    obtain ⟨cap, hloop, hcap⟩ := grow_ok hstart
    rw [hloop]
    obtain ⟨cmd', hrealloc, htext, hcap'⟩ := @Buffer.realloc_ok _ _ WinArgError.outOfBounds cmd cap (by omega)
    exact ⟨cmd', hrealloc, htext, by omega⟩
  · rw [if_neg hgrow]
    exact ⟨cmd, rfl, rfl, Nat.not_lt.mp hgrow⟩

/-! ## One argument -/

/-- The blank in front of an argument that is not the first. -/
def gap (text : Bytes) : Bytes := if text.length ≠ 0 then [space] else []

theorem gap_length (text : Bytes) : (gap text).length ≤ 1 := by
  unfold gap
  split
  · exact Nat.le_refl 1
  · exact Nat.zero_le 1

theorem putGap_ok (h : cmd.text.length < cmd.cap) : ∃ cmd', putGap cmd = .ok cmd' ∧ cmd.Extends (gap cmd.text) cmd' := by
  unfold putGap gap
  by_cases hempty : cmd.text.length ≠ 0
  · rw [if_pos hempty, if_pos hempty]
    exact Buffer.put_ok h
  · rw [if_neg hempty, if_neg hempty]
    exact ⟨cmd, rfl, .refl cmd⟩

theorem writeArg_ok (arg : CString) (h : cmd.text.length + argNeed arg ≤ cmd.cap) :
    ∃ cmd', writeArg cmd arg = .ok cmd' ∧ cmd.Extends (gap cmd.text ++ argText arg) cmd' := by
  unfold argNeed at h
  have hgap := gap_length cmd.text
  have hworst := quoted_length arg.bytes 0
  obtain ⟨cmd₁, hblank, hext₁⟩ := @putGap_ok cmd (by omega)
  have hlen₁ := hext₁.length
  have hcap₁ := hext₁.cap
  obtain ⟨cmd₂, hopen, hext₂⟩ := @Buffer.put_ok _ _ WinArgError.outOfBounds doubleQuote cmd₁ (by omega)
  have hlen₂ := hext₂.length
  have hcap₂ := hext₂.cap
  rw [List.length_singleton] at hlen₂
  obtain ⟨cmd₃, hchars, hext₃⟩ := @quoteChars_ok arg.bytes 0 cmd₂ (by omega)
  have hlen₃ := hext₃.length
  have hcap₃ := hext₃.cap
  obtain ⟨cmd₄, hclose, hext₄⟩ := @Buffer.put_ok _ _ WinArgError.outOfBounds doubleQuote cmd₃ (by omega)
  have hlen₄ := hext₄.length
  have hcap₄ := hext₄.cap
  rw [List.length_singleton] at hlen₄
  refine ⟨cmd₄, ?_, ?_⟩
  · rw [writeArg, hblank]
    show (cmd₁.put _ doubleQuote >>= _) = _
    rw [hopen]
    show (quoteChars arg.bytes 0 cmd₂ >>= _) = _
    rw [hchars]
    show (cmd₃.put _ doubleQuote >>= _) = _
    rw [hclose]
    exact Buffer.terminate_ok (by omega)
  · have hall := hext₁.trans (hext₂.trans (hext₃.trans hext₄))
    rw [← List.append_assoc [doubleQuote]] at hall
    exact hall

/-- `append_win_arg` writes the argument, or has no number for the size it takes. -/
theorem appendWinArg_cases (cmd : Buffer UInt8) (arg : CString) :
    (∃ cmd', appendWinArg cmd arg = .ok cmd' ∧ cmd'.text = cmd.text ++ (gap cmd.text ++ argText arg)) ∨
    (∃ e, (e = .argumentTooLarge ∨ e = .lineTooLarge) ∧ appendWinArg cmd arg = .error e ∧
      sizeMax ≤ cmd.text.length + argNeed arg) := by
  have hmax : sizeMax = 2 ^ 64 - 1 := rfl
  have hfour : sizeSub sizeMax 4 = sizeMax - 4 := by decide
  unfold appendWinArg
  rw [hfour]
  by_cases hlarge : arg.bytes.length > (sizeMax - 4) / 2
  · rw [if_pos hlarge]
    refine Or.inr ⟨_, Or.inl rfl, rfl, ?_⟩
    unfold argNeed
    omega
  have hneed : quoteNeed arg.bytes.length = argNeed arg := by
    unfold quoteNeed sizeAdd sizeMul argNeed
    omega
  have hleft : sizeSub (sizeSub sizeMax (argNeed arg)) 1 = sizeMax - argNeed arg - 1 := by
    unfold sizeSub argNeed
    omega
  rw [if_neg hlarge, hneed, hleft]
  by_cases hline : cmd.text.length > sizeMax - argNeed arg - 1
  · rw [if_pos hline]
    exact Or.inr ⟨_, Or.inr rfl, rfl, by omega⟩
  have hrequired : sizeAdd (sizeAdd cmd.text.length (argNeed arg)) 1 = cmd.text.length + argNeed arg + 1 := by
    unfold argNeed at hline ⊢
    unfold sizeAdd
    omega
  rw [if_neg hline, hrequired]
  obtain ⟨cmd₁, hreserve, htext, hcap⟩ := @reserve_ok cmd (cmd.text.length + argNeed arg + 1) (by omega)
  obtain ⟨cmd₂, hwrite, hext⟩ := @writeArg_ok cmd₁ arg (by rw [htext]; omega)
  refine Or.inl ⟨cmd₂, ?_, ?_⟩
  · rw [hreserve]
    exact hwrite
  · rw [hext.text, htext]

end Vnt.Runtime
