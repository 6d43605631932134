import Vnt.Lib.DepthFirst
import Vnt.Modules.Load

/-!
# `Modules.Flatten` — the loader writes the project depth first

The files of a project are documents in the sense of `Lib.DepthFirst`: their items are their lines, an import
line links to the file it resolves to and labels it with the alias. A run of `load_recursive` that succeeds
unfolds the file it was called for (`loadRecursive_called`); what is written and in which order then follows from
the library. The correspondence of states: the files in `paths` that are not active are those already written.

The limit on the active files bounds the recursion, so `vntModuleMaxImportDepth + 1` levels of fuel are enough for
every file system (`loadRecursive_fuel`).
-/

namespace Vnt.Modules

open Lib Relation

/-! ## The project as a graph of documents -/

/-- The lines of a file, none when it cannot be opened. -/
def FileSystem.lines (fs : FileSystem) (path : Text) : List Text :=
  match fs.readFile path with
  | .ok source => sourceLines source
  | .error _ => []

/-- The file that a line of `path` imports, and the alias it imports it under. -/
def FileSystem.importOf (fs : FileSystem) (path line : Text) : Option (Text × Option Text) :=
  match isImportLine line, directoryOf path with
  | some (module, aliasName), some directory =>
      some (resolveModulePath fs directory module, if aliasName = [] then none else some aliasName)
  | _, _ => none

/-- A line of `path` imports `target`. -/
def FileSystem.Imports (fs : FileSystem) : Text → Text → Prop := Links fs.lines fs.importOf

/-- What a line of the project is written as. -/
def FileSystem.Written (fs : FileSystem) (e : Piece Text (Option Text)) (text : Text) : Prop :=
  ∃ line, (fs.lines e.node)[e.index]? = some line ∧ emitLine e.node e.label line = .ok text

/-- Lines joined to a text, each with its newline. -/
def unlines (texts : List Text) : Text := texts.flatMap (· ++ ['\n'])

/-- The output after the lines `texts` were appended. -/
def appendAll (output : Option Text) : List Text → Option Text
  | [] => output
  | text :: texts => appendAll (some (output.getD [] ++ text ++ ['\n'])) texts

theorem appendAll_append (output : Option Text) (texts texts' : List Text) :
    appendAll output (texts ++ texts') = appendAll (appendAll output texts) texts' := by
  induction texts generalizing output with
  | nil => rfl
  | cons text texts ih => exact ih _

theorem appendAll_getD (output : Option Text) (texts : List Text) :
    (appendAll output texts).getD [] = output.getD [] ++ unlines texts := by
  induction texts generalizing output with
  | nil => simp [appendAll, unlines]
  | cons text texts ih => simp [appendAll, ih, unlines]

/-! ## One line -/

variable {fs : FileSystem}

theorem require_ok {α : Type} {r : Except ModuleError α} {a : α} : require r = .ok a ↔ r = .ok a := by
  cases r <;> simp [require]

/-- What a round of the loop can do when it succeeds. -/
theorem loadLine_cases {recurse : Loader → Text → Option Text → Except Halt Loader} {path directory line : Text}
    {ns : Option Text} {l l' : Loader} (hdir : directoryOf path = some directory)
    (h : loadLine fs recurse path directory ns l line = .ok l') :
    (∃ target label, fs.importOf path line = some (target, label) ∧ recurse l target label = .ok l') ∨
    (fs.importOf path line = none ∧
      ∃ text, emitLine path ns line = .ok text ∧ l' = (l.appendText text).appendText ['\n']) := by
  unfold loadLine at h
  unfold FileSystem.importOf
  rw [hdir]
  cases himp : isImportLine line with
  | some m =>
      rw [himp] at h
      exact .inl ⟨_, _, rfl, h⟩
  | none =>
      rw [himp] at h
      refine .inr ⟨rfl, ?_⟩
      dsimp only at h
      split at h
      · exact absurd h (by simp)
      · cases htext : require (emitLine path ns line) with
        | error e =>
            rw [htext] at h
            exact absurd h (by simp [bind, Except.bind])
        | ok text =>
            rw [htext] at h
            exact ⟨text, require_ok.mp htext, by simpa [bind, Except.bind] using h.symm⟩

theorem loadLines_cons {recurse : Loader → Text → Option Text → Except Halt Loader} {path directory line : Text}
    {ns : Option Text} {l l' : Loader} {lines : List Text}
    (h : loadLines fs recurse path directory ns l (line :: lines) = .ok l') :
    ∃ l₁, loadLine fs recurse path directory ns l line = .ok l₁ ∧
      loadLines fs recurse path directory ns l₁ lines = .ok l' := by
  rw [loadLines] at h
  cases hline : loadLine fs recurse path directory ns l line with
  | error e =>
      rw [hline] at h
      exact absurd h (by simp [bind, Except.bind])
  | ok l₁ =>
      rw [hline] at h
      exact ⟨l₁, rfl, h⟩

/-- The steps of `load_recursive` on a file it has not met. -/
theorem loadRecursive_new {fuel : Nat} {l l' : Loader} {path : Text} {ns : Option Text}
    (hseen : path ∉ l.paths) (h : loadRecursive fs (fuel + 1) l path ns = .ok l') :
    path ∉ l.activePaths ∧ ∃ directory l₁, directoryOf path = some directory ∧
      loadLines fs (loadRecursive fs fuel) path directory ns
        { l with paths := l.paths ++ [path], activePaths := l.activePaths ++ [path] } (fs.lines path) = .ok l₁ ∧
      l' = l₁.popActive := by
  rw [loadRecursive] at h
  split at h
  · exact absurd h (by simp)
  rename_i hactive
  rw [if_neg (by simpa [Loader.seen] using hseen)] at h
  split at h
  · exact absurd h (by simp)
  refine ⟨by simpa [Loader.isActive] using hactive, ?_⟩
  have hrem : (l.remember path).pushActive path =
      { l with paths := l.paths ++ [path], activePaths := l.activePaths ++ [path] } := by
    rw [Loader.remember, if_neg (by simpa [Loader.seen] using hseen)]
    rfl
  unfold FileSystem.lines
  cases hread : fs.readFile path with
  | error e =>
      rw [hread] at h
      exact absurd h (by simp [require, bind, Except.bind])
  | ok source =>
      rw [hread] at h
      simp only [require, bind, Except.bind, hrem] at h
      cases hdir : directoryOf path with
      | none =>
          rw [hdir] at h
          exact absurd h (by simp)
      | some directory =>
          rw [hdir] at h
          dsimp only at h
          split at h
          · exact absurd h (by simp)
          · rename_i l₁ hl₁
            exact ⟨directory, l₁, rfl, hl₁, (Except.ok.inj h).symm⟩

theorem loadRecursive_not_active {fuel : Nat} {l l' : Loader} {path : Text} {ns : Option Text}
    (h : loadRecursive fs fuel l path ns = .ok l') : path ∉ l.activePaths := by
  cases fuel with
  | zero => exact absurd h (by simp [loadRecursive])
  | succ fuel =>
      intro hact
      rw [loadRecursive, if_pos (by simpa [Loader.isActive] using hact)] at h
      exact absurd h (by simp)

theorem loadRecursive_seen {fuel : Nat} {l l' : Loader} {path : Text} {ns : Option Text}
    (hseen : path ∈ l.paths) (h : loadRecursive fs fuel l path ns = .ok l') : l' = l := by
  have hact := loadRecursive_not_active h
  cases fuel with
  | zero => exact absurd h (by simp [loadRecursive])
  | succ fuel =>
      rw [loadRecursive, if_neg (by simpa [Loader.isActive] using hact),
        if_pos (by simpa [Loader.seen] using hseen)] at h
      exact (Except.ok.inj h).symm

/-! ## The stack of active files -/

theorem loadLines_active {recurse : Loader → Text → Option Text → Except Halt Loader}
    (hrec : ∀ l path ns l', recurse l path ns = .ok l' → l'.activePaths = l.activePaths)
    {path directory : Text} {ns : Option Text} (hdir : directoryOf path = some directory) {lines : List Text}
    {l l' : Loader} (h : loadLines fs recurse path directory ns l lines = .ok l') :
    l'.activePaths = l.activePaths := by
  induction lines generalizing l with
  | nil => exact congrArg Loader.activePaths (Except.ok.inj h).symm
  | cons line lines ih =>
      obtain ⟨l₁, hline, hrest⟩ := loadLines_cons h
      rw [ih hrest]
      rcases loadLine_cases hdir hline with ⟨target, label, -, hcall⟩ | ⟨-, text, -, rfl⟩
      · exact hrec _ _ _ _ hcall
      · rfl

/-- A call leaves the stack as it found it. -/
theorem loadRecursive_active {fuel : Nat} {l l' : Loader} {path : Text} {ns : Option Text}
    (h : loadRecursive fs fuel l path ns = .ok l') : l'.activePaths = l.activePaths := by
  induction fuel generalizing l l' path ns with
  | zero => exact absurd h (by simp [loadRecursive])
  | succ fuel ih =>
      by_cases hseen : path ∈ l.paths
      · rw [loadRecursive_seen hseen h]
      · obtain ⟨-, directory, l₁, hdir, hlines, rfl⟩ := loadRecursive_new hseen h
        have hact := loadLines_active (fun _ _ _ _ => ih) hdir hlines
        show l₁.activePaths.dropLast = l.activePaths
        rw [hact]
        exact List.dropLast_concat

/-! ## Fuel -/

/-- Two continuations of the loop that agree wherever `n` files are active give the same run, and so does one
    that never lacks fuel there. -/
theorem loadLines_congr {recurse recurse' : Loader → Text → Option Text → Except Halt Loader} {n : Nat}
    (hact : ∀ l path ns l', recurse l path ns = .ok l' → l'.activePaths = l.activePaths)
    (hrec : ∀ l path ns, l.activePaths.length = n →
      recurse l path ns ≠ .error .outOfFuel ∧ recurse' l path ns = recurse l path ns)
    {path directory : Text} {ns : Option Text} {lines : List Text} {l : Loader} (hl : l.activePaths.length = n) :
    loadLines fs recurse path directory ns l lines ≠ .error .outOfFuel ∧
      loadLines fs recurse' path directory ns l lines = loadLines fs recurse path directory ns l lines := by
  induction lines generalizing l with
  | nil => exact ⟨by simp [loadLines], rfl⟩
  | cons line lines ih =>
      have hline : loadLine fs recurse path directory ns l line ≠ .error .outOfFuel ∧
          loadLine fs recurse' path directory ns l line = loadLine fs recurse path directory ns l line ∧
          ∀ l₁, loadLine fs recurse path directory ns l line = .ok l₁ → l₁.activePaths.length = n := by
        unfold loadLine
        split
        · obtain ⟨hne, heq⟩ := hrec l _ _ hl
          exact ⟨hne, heq, fun l₁ h => (congrArg List.length (hact _ _ _ _ h)).trans hl⟩
        · split
          · exact ⟨by simp, rfl, by simp⟩
          · cases emitLine path ns line with
            | error e => exact ⟨by simp [require, bind, Except.bind], rfl, by simp [require, bind, Except.bind]⟩
            | ok text =>
                refine ⟨by simp [require, bind, Except.bind], rfl, fun l₁ h => ?_⟩
                obtain rfl := Except.ok.inj h
                exact hl
      obtain ⟨hne, heq, hlen⟩ := hline
      rw [loadLines, loadLines, heq]
      cases hrun : loadLine fs recurse path directory ns l line with
      | error e =>
          refine ⟨fun hc => hne ?_, rfl⟩
          rw [hrun, ← hc]
          rfl
      | ok l₁ => exact ih (hlen l₁ hrun)

/-- The limit on the active files bounds the depth of the recursion. -/
theorem loadRecursive_fuel {fuel fuel' : Nat} {l : Loader} {path : Text} {ns : Option Text}
    (hactive : l.activePaths.length ≤ vntModuleMaxImportDepth)
    (hfuel : vntModuleMaxImportDepth < fuel + l.activePaths.length) (hle : fuel ≤ fuel') :
    loadRecursive fs fuel l path ns ≠ .error .outOfFuel ∧
      loadRecursive fs fuel' l path ns = loadRecursive fs fuel l path ns := by
  induction fuel generalizing fuel' l path ns with
  | zero => omega
  | succ fuel ih =>
      obtain ⟨fuel', rfl⟩ : ∃ m, fuel' = m + 1 := ⟨fuel' - 1, by omega⟩
      rw [loadRecursive, loadRecursive]
      split
      · exact ⟨by simp, rfl⟩
      split
      · exact ⟨by simp, rfl⟩
      split
      · exact ⟨by simp, rfl⟩
      rename_i hdepth
      cases fs.readFile path with
      | error e => exact ⟨by simp [require, bind, Except.bind], rfl⟩
      | ok source =>
          simp only [require, bind, Except.bind]
          split
          · exact ⟨by simp, rfl⟩
          rename_i directory hdir
          have hpush : ((l.remember path).pushActive path).activePaths.length = l.activePaths.length + 1 := by
            rw [Loader.remember]
            split <;> simp [Loader.pushActive]
          obtain ⟨hne, heq⟩ : _ ∧ _ := @loadLines_congr fs (loadRecursive fs fuel) (loadRecursive fs fuel')
            (l.activePaths.length + 1) (fun _ _ _ _ => loadRecursive_active)
            (fun m _ _ hm => ih (by omega) (by omega) (by omega)) path directory ns (sourceLines source)
            ((l.remember path).pushActive path) hpush
          rw [heq]
          refine ⟨?_, rfl⟩
          split
          · rename_i e he
            rw [he] at hne
            exact fun hc => hne (congrArg Except.error (Except.error.inj hc))
          · simp

/-! ## A successful run unfolds the file -/

/-- The files written so far are those in `paths` that are not active. -/
def Loader.Tracks (l : Loader) (done : List Text) : Prop :=
  ∀ x, x ∈ l.paths ↔ x ∈ done ∨ x ∈ l.activePaths

/-- What a call for an unmet file does: the file unfolds. -/
def Called (fs : FileSystem) (recurse : Loader → Text → Option Text → Except Halt Loader) : Prop :=
  ∀ l path ns l' done, recurse l path ns = .ok l' → path ∉ l.paths → l.Tracks done →
    ∃ out done' texts, Unfolds fs.lines fs.importOf done path ns 0 (fs.lines path) out done' ∧
      List.Forall₂ fs.Written out texts ∧ l'.output = appendAll l.output texts ∧ l'.Tracks (path :: done')

theorem loadLines_unfolds {fuel : Nat} (hrec : Called fs (loadRecursive fs fuel)) {path directory : Text}
    {ns : Option Text} (hdir : directoryOf path = some directory) {lines : List Text} {k : Nat}
    (hlines : lines = (fs.lines path).drop k) {l l' : Loader} {done : List Text} (htracks : l.Tracks done)
    (h : loadLines fs (loadRecursive fs fuel) path directory ns l lines = .ok l') :
    ∃ out done' texts, Unfolds fs.lines fs.importOf done path ns k lines out done' ∧
      List.Forall₂ fs.Written out texts ∧ l'.output = appendAll l.output texts ∧ l'.Tracks done' := by
  induction lines generalizing k l done with
  | nil =>
      obtain rfl := Except.ok.inj h
      exact ⟨[], done, [], .nil, .nil, rfl, htracks⟩
  | cons line lines ih =>
      obtain ⟨l₁, hline, hrest⟩ := loadLines_cons h
      have hat : (fs.lines path)[k]? = some line := by
        have h0 : ((fs.lines path).drop k)[0]? = some line := by rw [← hlines]; rfl
        simpa using h0
      have hdrop : lines = (fs.lines path).drop (k + 1) := by
        rw [← List.tail_drop, ← hlines]
        rfl
      rcases loadLine_cases hdir hline with ⟨target, label, himp, hcall⟩ | ⟨himp, text, htext, rfl⟩
      · by_cases hseen : target ∈ l.paths
        · -- the file is written already: nothing changes
          obtain rfl := loadRecursive_seen hseen hcall
          have hdone : target ∈ done :=
            ((htracks target).mp hseen).resolve_right (loadRecursive_not_active hcall)
          obtain ⟨out, done', texts, hunf, hwr, hout, htr⟩ := ih hdrop htracks hrest
          exact ⟨out, done', texts, .old himp hdone hunf, hwr, hout, htr⟩
        · obtain ⟨out₁, done₁, texts₁, hunf₁, hwr₁, hout₁, htr₁⟩ := hrec _ _ _ _ _ hcall hseen htracks
          obtain ⟨out₂, done₂, texts₂, hunf₂, hwr₂, hout₂, htr₂⟩ := ih hdrop htr₁ hrest
          have hnew : target ∉ done := fun hd => hseen ((htracks target).mpr (.inl hd))
          refine ⟨out₁ ++ out₂, done₂, texts₁ ++ texts₂, .fresh himp hnew hunf₁ hunf₂,
            List.rel_append hwr₁ hwr₂, ?_, htr₂⟩
          rw [hout₂, hout₁, appendAll_append]
      · have htracks' : ((l.appendText text).appendText ['\n']).Tracks done := htracks
        obtain ⟨out, done', texts, hunf, hwr, hout, htr⟩ := ih hdrop htracks' hrest
        refine ⟨⟨path, ns, k⟩ :: out, done', text :: texts, .text himp hunf,
          .cons ⟨line, hat, htext⟩ hwr, ?_, htr⟩
        rw [hout]
        rfl

theorem loadRecursive_called (fuel : Nat) : Called fs (loadRecursive fs fuel) := by
  induction fuel with
  | zero =>
      intro l path ns l' done h
      exact absurd h (by simp [loadRecursive])
  | succ fuel ih =>
      intro l path ns l' done h hseen htracks
      obtain ⟨-, directory, l₁, hdir, hlines, rfl⟩ := loadRecursive_new hseen h
      have htracks' : Loader.Tracks
          { l with paths := l.paths ++ [path], activePaths := l.activePaths ++ [path] } done := by
        intro x
        have hx := htracks x
        simp only [List.mem_append]
        tauto
      obtain ⟨out, done', texts, hunf, hwr, hout, htr⟩ := loadLines_unfolds (k := 0) ih hdir rfl htracks' hlines
      have hact := loadLines_active (fun _ _ _ _ => loadRecursive_active) hdir hlines
      refine ⟨out, done', texts, hunf, hwr, hout, fun x => ?_⟩
      have hx : x ∈ l₁.paths ↔ x ∈ done' ∨ x ∈ l.activePaths ++ [path] := by rw [htr x, hact]
      have hpop : l₁.popActive.activePaths = l.activePaths := loadRecursive_active h
      rw [hpop]
      show x ∈ l₁.paths ↔ _
      rw [hx, List.mem_append, List.mem_singleton, List.mem_cons]
      tauto

/-! ## The whole project -/

end Vnt.Modules
