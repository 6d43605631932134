import Vnt.VBuild.Script

/-!
# `VBuild.TaskGraph` — what an accepted script promises

`load_tasks` walks the graph once before anything runs, so a script that it accepts has no cycle and no undefined name,
and the walk of `execute_task` over it can stop for one reason only, an action that fails.
-/

namespace Vnt.VBuild

open Modules Lib Relation

/-- Task `i` names task `j` among its dependencies. -/
def DependsOn (tasks : List Task) (i j : Nat) : Prop :=
  ∃ task dep, tasks[i]? = some task ∧ dep ∈ task.deps ∧ findTask tasks dep = some j

/-- Task `i` is `start` or something it depends on. -/
abbrev Needs (tasks : List Task) : Nat → Nat → Prop := ReflTransGen (DependsOn tasks)

variable {tasks : List Task} {executeAction : Nat → Int} {start i j : Nat}

theorem leads_iff : Lib.Leads (dependencies tasks) i j ↔ DependsOn tasks i j := by
  unfold Lib.Leads dependencies DependsOn
  cases hi : tasks[i]? with
  | none =>
      constructor
      · nofun
      · rintro ⟨task, dep, htask, -⟩
        cases htask
  | some task =>
      simp only [List.mem_map]
      constructor
      · rintro ⟨dep, hdep, hj⟩
        exact ⟨task, dep, rfl, hdep, hj⟩
      · rintro ⟨task', dep, htask, hdep, hj⟩
        cases htask
        exact ⟨dep, hdep, hj⟩

theorem leads_eq : Lib.Leads (dependencies tasks) = DependsOn tasks := by
  funext i j
  exact propext leads_iff

theorem findTask_lt {name : Text} (h : findTask tasks name = some j) : j < tasks.length := by
  obtain ⟨hlt, -⟩ := List.findIdx?_eq_some_iff_getElem.mp h
  exact hlt

theorem DependsOn.lt (h : DependsOn tasks i j) : j < tasks.length := by
  obtain ⟨task, dep, -, -, hj⟩ := h
  exact findTask_lt hj

theorem leads_range : ∀ i ∈ List.range tasks.length, ∀ j, Lib.Leads (dependencies tasks) i j →
    j ∈ List.range tasks.length := by
  intro i _ j h
  rw [leads_iff] at h
  exact List.mem_range.mpr h.lt

/-! ## What `load_tasks` checks -/

theorem defined_of_none (h : firstUndefined tasks = none) {task : Task} (htask : task ∈ tasks) {dep : Text}
    (hdep : dep ∈ task.deps) : ∃ j, findTask tasks dep = some j := by
  have hfirst := List.findSome?_eq_none_iff.mp h task htask
  rw [Option.map_eq_none_iff, List.find?_eq_none] at hfirst
  have hfound := hfirst dep hdep
  rw [decide_eq_true_eq] at hfound
  exact Option.ne_none_iff_exists'.mp hfound

/-- Every dependency is there. -/
theorem none_notMem (h : firstUndefined tasks = none) (i : Nat) : none ∉ dependencies tasks i := by
  unfold dependencies
  cases hi : tasks[i]? with
  | none => exact List.not_mem_nil
  | some task =>
      intro hmem
      obtain ⟨dep, hdep, hnone⟩ := List.mem_map.mp hmem
      obtain ⟨j, hj⟩ := defined_of_none h (List.mem_of_getElem? hi) hdep
      rw [hj] at hnone
      cases hnone

/-- The walk over all tasks finds every cycle. -/
theorem acc_of_validated (h : (validateTasks tasks).1 = none) (i : Nat) :
    Acc (fun y x => Lib.Leads (dependencies tasks) x y) i := by
  by_cases hi : i < tasks.length
  · have hfuel : (validateTasks tasks).1 ≠ some .outOfFuel := by
      rw [h]
      exact nofun
    have hrun : Walks (dependencies tasks) (fun _ => none) _ .start (validateTasks tasks).1 (validateTasks tasks).2 :=
      walkAll_walk hfuel
    obtain ⟨hsound, hall⟩ := (hrun.sound Walk.start_sound).2 h
    obtain ⟨y, hy, heq⟩ := hall (some i) (List.mem_map_of_mem (List.mem_range.mpr hi))
    cases heq
    exact hsound.order.acc i hy
  · refine .intro i fun j hj => ?_
    obtain ⟨task, dep, htask, -⟩ := leads_iff.mp hj
    rw [List.getElem?_eq_none (Nat.le_of_not_lt hi)] at htask
    cases htask

/-- The graph of a script: no undefined name and no cycle. -/
structure Checked (tasks : List Task) : Prop where
  defined : firstUndefined tasks = none
  acc : ∀ i, Acc (fun y x => Lib.Leads (dependencies tasks) x y) i

theorem Checked.acyclic (h : Checked tasks) (i : Nat) : ¬ TransGen (DependsOn tasks) i i := by
  rw [← leads_eq]
  exact acyclic_of_acc (h.acc i)

theorem checked_of_loadTasks {contents : Option Text} {script : Script} (h : loadTasks contents = .ok script) :
    Checked script.tasks := by
  cases contents with
  | none => cases h
  | some contents =>
      obtain ⟨state, -, hstate⟩ := bind_eq_ok.mp h
      split at hstate
      · cases hstate
      unfold checkGraph at hstate
      split at hstate
      · cases hstate
      cases hundefined : firstUndefined state.script.tasks with
      | some pair =>
          rw [hundefined] at hstate
          cases hstate
      | none =>
          rw [hundefined] at hstate
          cases hvalid : (validateTasks state.script.tasks).1 with
          | none =>
              rw [hvalid] at hstate
              cases hstate
              exact ⟨hundefined, acc_of_validated hvalid⟩
          | some stop =>
              rw [hvalid] at hstate
              cases stop <;> cases hstate

/-! ## A run of a task -/

/-- What a run performs, in this order, and what it returns. -/
structure Performs (tasks : List Task) (executeAction : Nat → Int) (start : Nat) (performed : List Nat) (rc : Int) :
    Prop where
  once : performed.Nodup
  needed : ∀ i ∈ performed, Needs tasks start i
  /-- A task comes after its dependencies, and everything before it has succeeded. -/
  ordered : ∀ before i after, performed = before ++ i :: after →
    (∀ j, DependsOn tasks i j → j ∈ before) ∧ ∀ j ∈ before, executeAction j = 0
  /-- Nothing comes after a failure, and the run returns it. -/
  failure : ∀ i ∈ performed, executeAction i ≠ 0 → performed.getLast? = some i ∧ rc = executeAction i
  success : rc = 0 → ∀ i, Needs tasks start i → i ∈ performed
  /-- The run returns nothing else than the result of an action. -/
  returned : rc ≠ 0 → ∃ i ∈ performed, rc = executeAction i

theorem mem_of_needs {l : List Nat} (hclosed : ∀ i ∈ l, ∀ j, DependsOn tasks i j → j ∈ l) (hstart : start ∈ l)
    (h : Needs tasks start i) : i ∈ l := by
  induction h with
  | refl => exact hstart
  | tail _ hstep ih => exact hclosed _ ih _ hstep

theorem executeTask_walks (executeAction : Nat → Int) (h : Checked tasks) (hstart : start < tasks.length) :
    (executeTask tasks executeAction start .start).1 ≠ some .outOfFuel ∧
    (executeTask tasks executeAction start .start).1 ≠ some .missing ∧
    (∀ i, (executeTask tasks executeAction start .start).1 ≠ some (.cycle i)) ∧
    Walks (dependencies tasks) (fun i => if executeAction i = 0 then none else some (executeAction i)) [some start]
      .start (executeTask tasks executeAction start .start).1 (executeTask tasks executeAction start .start).2 := by
  have hfresh : (Walk.start : Walk Nat).freshIn (List.range tasks.length) < tasks.length + 1 := by
    have hle : (Walk.start : Walk Nat).freshIn (List.range tasks.length) ≤ (List.range tasks.length).length :=
      List.countP_le_length
    rw [List.length_range] at hle
    omega
  have hfuel : (executeTask tasks executeAction start .start).1 ≠ some .outOfFuel :=
    walk_fuel leads_range _ start (List.mem_range.mpr hstart) .start hfresh
  have hwalks := walk_walks hfuel
  refine ⟨hfuel, hwalks.not_missing (none_notMem h.defined) (by simp), fun i hi => ?_, hwalks⟩
  exact acyclic_of_acc (h.acc i) (hwalks.cyclic hi nofun)

/-- **A run of a task.** -/
theorem executeTask_performs (h : Checked tasks) (hstart : start < tasks.length) :
    Performs tasks executeAction start (executeTask tasks executeAction start .start).2.log.reverse
      (exitCode (executeTask tasks executeAction start .start).1) := by
  obtain ⟨hfuel, hmissing, hcycle, hwalks⟩ := executeTask_walks executeAction h hstart
  obtain ⟨horder, hdone⟩ := hwalks.sound Walk.start_sound
  obtain ⟨hfailed, hsucceeded⟩ := hwalks.succeeded
  obtain ⟨new, hlog, hnew⟩ := hwalks.log
  generalize (executeTask tasks executeAction start .start).1 = r at *
  generalize (executeTask tasks executeAction start .start).2 = w at *
  have hzero : ∀ i, (if executeAction i = 0 then none else some (executeAction i)) = none ↔ executeAction i = 0 := by
    intro i
    by_cases hi : executeAction i = 0
    · simp [hi]
    · simp [hi]
  have hafter : ∀ before i after, w.log.reverse = before ++ i :: after → ∀ j, DependsOn tasks i j → j ∈ before := by
    intro before i after heq j hj
    have hsplit : w.log = after.reverse ++ i :: before.reverse := by
      rw [← List.reverse_reverse w.log, heq]
      simp
    exact List.mem_reverse.mp (horder.after hsplit (leads_iff.mpr hj))
  have hneeded : ∀ i ∈ w.log.reverse, Needs tasks start i := by
    intro i hi
    rw [List.mem_reverse, hlog] at hi
    rcases List.mem_append.mp hi with hi | hi
    · obtain ⟨z, hz, hr⟩ := hnew i hi
      cases List.mem_singleton.mp hz
      rw [leads_eq] at hr
      exact hr
    · cases hi
  have hnodup : w.log.reverse.Nodup := List.nodup_reverse.mpr horder.nodup
  cases r with
  | none =>
      have hall : ∀ i ∈ w.log.reverse, executeAction i = 0 := by
        intro i hi
        rcases hsucceeded nofun i (List.mem_reverse.mp hi) with hmem | hact
        · cases hmem
        · exact (hzero i).mp hact
      refine ⟨hnodup, hneeded, fun before i after heq => ⟨hafter before i after heq, fun j hj => ?_⟩,
        fun i hi hne => absurd (hall i hi) hne, fun _ i hi => ?_, fun hne => absurd rfl hne⟩
      · exact hall j (by rw [heq]; exact List.mem_append_left _ hj)
      · refine mem_of_needs (fun x hx y hxy => ?_) ?_ hi
        · obtain ⟨before, after, heq⟩ := List.append_of_mem hx
          rw [heq]
          exact List.mem_append_left _ (hafter before x after heq y hxy)
        · obtain ⟨y, hy, heq⟩ := (hdone rfl).2 _ List.mem_cons_self
          cases heq
          exact List.mem_reverse.mpr hy
  | some stop =>
      cases stop with
      | outOfFuel => exact absurd rfl hfuel
      | missing => exact absurd rfl hmissing
      | cycle i => exact absurd rfl (hcycle i)
      | failed x rc =>
          obtain ⟨hact, l, hl, -, hothers⟩ := hfailed x rc rfl
          have hx : executeAction x = rc ∧ rc ≠ 0 := by
            by_cases hx : executeAction x = 0
            · rw [if_pos hx] at hact
              cases hact
            · rw [if_neg hx] at hact
              cases hact
              exact ⟨rfl, hx⟩
          have hgood : ∀ i ∈ l, executeAction i = 0 := by
            intro i hi
            rcases hothers i hi with hmem | hact
            · cases hmem
            · exact (hzero i).mp hact
          have hreverse : w.log.reverse = l.reverse ++ [x] := by rw [hl, List.reverse_cons]
          refine ⟨hnodup, hneeded, fun before i after heq => ⟨hafter before i after heq, fun j hj => ?_⟩,
            fun i hi hne => ?_, fun hrc => absurd hrc hx.2, fun _ => ⟨x, ?_, hx.1.symm⟩⟩
          · -- what stands before a task is not the last
            rw [hreverse] at heq
            have hmem : j ∈ l.reverse := by
              rcases List.eq_nil_or_concat after with rfl | ⟨init, last, rfl⟩
              · obtain ⟨hbefore, -⟩ := List.append_inj' heq rfl
                rw [hbefore]
                exact hj
              · have hassoc : before ++ i :: (init ++ [last]) = (before ++ i :: init) ++ [last] := by simp
                rw [List.concat_eq_append, hassoc] at heq
                obtain ⟨hbefore, -⟩ := List.append_inj' heq rfl
                rw [hbefore]
                exact List.mem_append_left _ hj
            exact hgood j (List.mem_reverse.mp hmem)
          · rw [hreverse] at hi ⊢
            rcases List.mem_append.mp hi with hi | hi
            · exact absurd (hgood i (List.mem_reverse.mp hi)) hne
            · cases List.mem_singleton.mp hi
              exact ⟨by simp, hx.1.symm⟩
          · rw [hreverse]
            exact List.mem_append_right _ List.mem_cons_self

/-- The lock is needed when some task of the run is not read-only. -/
theorem taskGraphRequiresLock_iff (hstart : start < tasks.length) : taskGraphRequiresLock tasks start = true ↔
    ∃ i task, Needs tasks start i ∧ tasks[i]? = some task ∧ task.action ≠ .check ∧ task.action ≠ .none := by
  have hreadOnly : ∀ action : Action, (! action.readOnly) = true ↔ action ≠ .check ∧ action ≠ .none := by
    intro action
    cases action <;> simp [Action.readOnly]
  rw [taskGraphRequiresLock, search_iff leads_range (List.mem_range.mpr hstart) (by simp), leads_eq]
  constructor
  · rintro ⟨i, hi, hfound⟩
    cases htask : tasks[i]? with
    | none =>
        rw [htask] at hfound
        cases hfound
    | some task =>
        rw [htask] at hfound
        exact ⟨i, task, hi, htask, (hreadOnly task.action).mp hfound⟩
  · rintro ⟨i, task, hi, htask, haction⟩
    refine ⟨i, hi, ?_⟩
    rw [htask]
    exact (hreadOnly task.action).mpr haction

/-! ## The engine -/

/-- **The task engine.** For every script that `load_tasks` accepts, every named dependency is defined and no task
    depends on itself; a run of any task performs what it needs, in order and once each, and stops with the first
    failure, whatever the actions return; it does not report a cycle; and it takes the lock exactly when something it
    needs is not read-only. -/
theorem taskEngine_correct {contents : Option Text} {script : Script} (h : loadTasks contents = .ok script) :
    (∀ task ∈ script.tasks, ∀ dep ∈ task.deps, ∃ j, findTask script.tasks dep = some j ∧ j < script.tasks.length) ∧
    (∀ i, ¬ TransGen (DependsOn script.tasks) i i) ∧
    (∀ start < script.tasks.length, ∀ executeAction : Nat → Int,
      Performs script.tasks executeAction start (executeTask script.tasks executeAction start .start).2.log.reverse
        (exitCode (executeTask script.tasks executeAction start .start).1) ∧
      ∀ i, (executeTask script.tasks executeAction start .start).1 ≠ some (.cycle i)) ∧
    (∀ start < script.tasks.length, taskGraphRequiresLock script.tasks start = true ↔
      ∃ i task, Needs script.tasks start i ∧ script.tasks[i]? = some task ∧ task.action ≠ .check ∧
        task.action ≠ .none) := by
  have hchecked := checked_of_loadTasks h
  refine ⟨fun task htask dep hdep => ?_, hchecked.acyclic, fun start hstart executeAction => ?_,
    fun start hstart => taskGraphRequiresLock_iff hstart⟩
  · obtain ⟨j, hj⟩ := defined_of_none hchecked.defined htask hdep
    exact ⟨j, hj, findTask_lt hj⟩
  · exact ⟨executeTask_performs hchecked hstart, (executeTask_walks executeAction hchecked hstart).2.2.1⟩

/-- A diamond, written from its top. -/
def diamond : Text :=
  "task all = none depends left, right
task left = build depends base
task right = check depends base
task base = clean
".toList

theorem diamond_correct : ∃ script, loadTasks (some diamond) = .ok script ∧
    Performs script.tasks (fun i => if i = 2 then 7 else 0) 0 [3, 1, 2] 7 ∧
    taskGraphRequiresLock script.tasks 0 = true := by
  have hload : loadTasks (some diamond) = .ok ⟨[⟨"all".toList, .none, ["left".toList, "right".toList]⟩,
      ⟨"left".toList, .build, ["base".toList]⟩, ⟨"right".toList, .check, ["base".toList]⟩,
      ⟨"base".toList, .clean, []⟩], [], [], none⟩ := by decide +kernel
  obtain ⟨-, -, hrun, -⟩ := taskEngine_correct hload
  refine ⟨_, hload, (hrun 0 (by decide) _).1, by decide⟩

end Vnt.VBuild
