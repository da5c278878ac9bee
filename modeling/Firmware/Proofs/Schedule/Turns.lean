import Firmware.Proofs.Schedule.Completion
/-!
Runs without waiting.  Where every routine ends as soon as its turn comes, instances are
emitted one after another in their order, and the run succeeds with what the last of them
leaves behind.
-/

namespace Firmware

namespace Schedule

variable {names : NameTable} {tasks : List Task} {shared final : Shared} {task : Task}
  {count position : Nat}

/-- Tasks of which the first few have ended. -/
def afterTurns (tasks : List Task) (count : Nat) : List Task :=
  tasks.mapIdx fun position task =>
    if position < count then { task with progress := .ended } else task

theorem getElem?_afterTurns (tasks : List Task) (count position : Nat) :
    (afterTurns tasks count)[position]? = (tasks[position]?).map fun task =>
      if position < count then { task with progress := .ended } else task :=
  List.getElem?_mapIdx

theorem afterTurns_zero (tasks : List Task) : afterTurns tasks 0 = tasks := by
  apply List.ext_getElem?
  intro position
  simp [getElem?_afterTurns]

/-- A task that ends in its turn adds one to those that have ended. -/
theorem advance_afterTurns (hpresent : tasks[count]? = some task) :
    advance ⟨afterTurns tasks count, shared⟩ count task .ended final =
      ⟨afterTurns tasks (count + 1), final⟩ := by
  have hbound := (List.getElem?_eq_some_iff.mp hpresent).1
  refine congrArg (Schedule.mk · final) (List.ext_getElem? fun position => ?_)
  rw [List.getElem?_set, getElem?_afterTurns, getElem?_afterTurns]
  by_cases heq : count = position
  · subst heq
    obtain rfl := Option.some.inj ((List.getElem?_eq_getElem hbound).symm.trans hpresent)
    simp [afterTurns, hbound]
  · have hlt : position < count ↔ position < count + 1 := by omega
    simp [heq, hlt]

theorem hasEnded_afterTurns (hbound : position < tasks.length) (hlt : position < count) :
    hasEnded ⟨afterTurns tasks count, shared⟩ position = true := by
  rw [hasEnded, getElem?_afterTurns, List.getElem?_eq_getElem hbound]
  simp [hlt, Task.hasEnded]

/-- No task waits as long as tasks end in their turns. -/
theorem pause?_of_mem_afterTurns (hfresh : AllUnstarted tasks)
    (hmem : task ∈ afterTurns tasks count) : task.pause? = none := by
  obtain ⟨position, hpresent⟩ := List.mem_iff_getElem?.mp hmem
  rw [getElem?_afterTurns] at hpresent
  obtain ⟨origin, horigin, rfl⟩ := Option.map_eq_some_iff.mp hpresent
  obtain ⟨script, hprogress⟩ := hfresh origin (List.mem_of_getElem? horigin)
  split
  · rfl
  · simp [Task.pause?, hprogress]

theorem next?_afterTurns (hfresh : AllUnstarted tasks) (hdownward : Downward tasks)
    (hpresent : tasks[count]? = some task) :
    next? ⟨afterTurns tasks count, shared⟩ = some count := by
  have hresume : (afterTurns tasks count).findIdx? (Task.canResume shared.published) = none := by
    rw [List.findIdx?_eq_none_iff]
    intro found hmem
    rw [Task.canResume, pause?_of_mem_afterTurns hfresh hmem]
    rfl
  have hbound := (List.getElem?_eq_some_iff.mp hpresent).1
  simp only [next?, hresume]
  rw [List.findIdx?_eq_some_iff_getElem]
  refine ⟨by simpa [afterTurns] using hbound, ?_, fun earlier hlt => ?_⟩
  · obtain rfl := Option.some.inj ((List.getElem?_eq_getElem hbound).symm.trans hpresent)
    obtain ⟨script, hprogress⟩ := hfresh _ (List.getElem_mem hbound)
    simp only [afterTurns, List.getElem_mapIdx, Nat.lt_irrefl, if_false, Task.canStart, hprogress,
      List.all_eq_true]
    intro dependency hdependency
    have hearlier := hdownward _ _ hpresent dependency hdependency
    exact hasEnded_afterTurns (Nat.lt_trans hearlier hbound) hearlier
  · simp [afterTurns, hlt, Task.canStart]

theorem step_afterTurns {own : Local} {ended : Shared} (hfresh : AllUnstarted tasks)
    (hdownward : Downward tasks) (hpresent : tasks[count]? = some task)
    (hpoll : task.poll? count shared = some (.ended own ended))
    (hconcluded : conclude task own ended = .ok final) :
    step ⟨afterTurns tasks count, shared⟩ = .next ⟨afterTurns tasks (count + 1), final⟩ := by
  have htask : (afterTurns tasks count)[count]? = some task := by
    simp [getElem?_afterTurns, hpresent]
  simp only [step, next?_afterTurns hfresh hdownward hpresent, htask, hpoll, absorb, hconcluded]
  rw [advance_afterTurns hpresent]

theorem run_eq_run_of_step {schedule schedule' : Schedule} (h : schedule.step = .next schedule') :
    schedule.run = schedule'.run := by
  rw [run]
  split
  · next moved => rw [Move.next.inj (h.symm.trans moved)]
  · next moved => simp [h] at moved
  · next moved => simp [h] at moved

theorem run_eq_of_settled {schedule : Schedule} (h : schedule.step = .settled) :
    schedule.run = ⟨schedule.verdict, schedule.shared.trace⟩ := by
  rw [run]
  split
  · next moved => simp [h] at moved
  · next moved => simp [h] at moved
  · rfl

theorem run_eq_of_failed {schedule : Schedule} {failure : Failure} {shared : Shared}
    (h : schedule.step = .failed failure shared) :
    schedule.run = ⟨.error failure, shared.trace⟩ := by
  rw [run]
  split
  · next moved => simp [h] at moved
  · next moved =>
      obtain ⟨rfl, rfl⟩ := Move.failed.inj (h.symm.trans moved)
      rfl
  · next moved => simp [h] at moved

/-- When all tasks have ended in their turns, there is nothing left to do. -/
theorem run_afterTurns_length (hfresh : AllUnstarted tasks) :
    (run ⟨afterTurns tasks tasks.length, shared⟩).result = .ok shared.code := by
  have hended : ∀ task ∈ afterTurns tasks tasks.length, task.progress = .ended := by
    intro task hmem
    obtain ⟨position, hpresent⟩ := List.mem_iff_getElem?.mp hmem
    rw [getElem?_afterTurns] at hpresent
    obtain ⟨origin, horigin, rfl⟩ := Option.map_eq_some_iff.mp hpresent
    rw [if_pos (List.getElem?_eq_some_iff.mp horigin).1]
  have hsettled : step ⟨afterTurns tasks tasks.length, shared⟩ = .settled := by
    refine step_eq_settled_iff.mpr fun task hmem => ?_
    simp [CanPoll, Task.canResume, Task.canStart, Task.pause?, hended task hmem]
  rw [run_eq_of_settled hsettled]
  exact verdict_eq_ok_iff.mpr ⟨fun task hmem => pause?_of_mem_afterTurns hfresh hmem, rfl⟩

/-- If every routine ends when its turn comes, and each turn leads from what holds before
it to what holds after it, then the run succeeds with what holds after all of them. -/
theorem run_in_turns (invariant : Nat → Shared → Prop) (hfresh : AllUnstarted tasks)
    (hdownward : Downward tasks) (hfirst : invariant 0 (start names tasks).shared)
    (hturn : ∀ count task shared, tasks[count]? = some task → invariant count shared →
      ∃ own ended final, task.poll? count shared = some (.ended own ended) ∧
        conclude task own ended = .ok final ∧ invariant (count + 1) final) :
    ∃ final, invariant tasks.length final ∧ (start names tasks).run.result = .ok final.code := by
  have hrest : ∀ left count shared, count + left = tasks.length → invariant count shared →
      ∃ final, invariant tasks.length final ∧
        (run ⟨afterTurns tasks count, shared⟩).result = .ok final.code := by
    intro left
    induction left with
    | zero =>
        rintro count shared rfl hholds
        exact ⟨shared, hholds, run_afterTurns_length hfresh⟩
    | succ left ih =>
        intro count shared hcount hholds
        have hbound : count < tasks.length := by omega
        have hpresent := List.getElem?_eq_getElem hbound
        obtain ⟨own, ended, final, hpoll, hconcluded, hafter⟩ :=
          hturn count _ shared hpresent hholds
        rw [run_eq_run_of_step (step_afterTurns hfresh hdownward hpresent hpoll hconcluded)]
        exact ih (count + 1) final (by omega) hafter
  have hall := hrest tasks.length 0 (start names tasks).shared (by omega) hfirst
  rwa [afterTurns_zero] at hall

end Schedule

end Firmware
