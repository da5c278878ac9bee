import Firmware.Component
import Firmware.Graph.Order
import Firmware.Schedule.Basic
/-!
Runs of a schedule.  Every poll moves a routine past at least one of its steps, so
less remains to be done after it, and a run always ends.
-/

namespace Firmware

namespace Schedule

/-- Giving one task less weight makes the whole lighter. -/
theorem sum_set_lt {weight : Task → Nat} {tasks : List Task} {position : Nat}
    {old new : Task} (present : tasks[position]? = some old) (less : weight new < weight old) :
    (tasks.set position new).foldr (fun task total => weight task + total) 0 <
      tasks.foldr (fun task total => weight task + total) 0 := by
  induction tasks generalizing position with
  | nil => simp at present
  | cons head rest ih =>
      cases position with
      | zero =>
          obtain rfl : head = old := by simpa using present
          simp only [List.set_cons_zero, List.foldr_cons]
          omega
      | succ position =>
          have smaller := ih (by simpa using present)
          simp only [List.set_cons_succ, List.foldr_cons]
          omega

theorem length_lt_weight_of_poll {task : Task} {position : Nat} {shared shared' : Shared}
    {pause : Pause} {rest : List Step} {own : Local}
    (h : task.poll? position shared = some (.paused pause rest own shared')) :
    rest.length + 1 < task.weight := by
  unfold Task.poll? at h
  unfold Task.weight
  split at h
  · have := Step.length_lt_of_run_eq_paused (Option.some.inj h)
    simp_all
  · obtain ⟨id, _, run⟩ := Option.map_eq_some_iff.mp h
    unfold Step.resume at run
    split at run <;> have := Step.length_lt_of_run_eq_paused run <;> simp_all
  · simp at h

theorem weight_pos_of_poll {task : Task} {position : Nat} {shared : Shared} {poll : Poll}
    (h : task.poll? position shared = some poll) : 0 < task.weight := by
  unfold Task.poll? at h
  unfold Task.weight
  split at h <;> simp_all

/-- Every poll leaves less to do. -/
theorem weight_lt_of_step {schedule schedule' : Schedule}
    (h : schedule.step = .next schedule') : schedule'.weight < schedule.weight := by
  unfold step at h
  split at h
  · simp at h
  · split at h
    · simp at h
    · split at h
      · simp at h
      · rename_i task present _ poll polled
        unfold absorb at h
        split at h
        · split at h
          · obtain rfl := Move.next.inj h
            exact sum_set_lt present (weight_pos_of_poll polled)
          · simp at h
        · simp at h
        · obtain rfl := Move.next.inj h
          exact sum_set_lt present (length_lt_weight_of_poll polled)

/-- Polls until nothing can be polled any more. -/
def run (schedule : Schedule) : Outcome :=
  match moved : schedule.step with
  | .next schedule' =>
      have := weight_lt_of_step moved
      run schedule'
  | .failed failure shared => ⟨.error failure, shared.trace⟩
  | .settled => ⟨schedule.verdict, schedule.shared.trace⟩
termination_by schedule.weight

/-- The task of an instance, with the routine that is registered for its kind. -/
def taskOf (components : Components) (inst : Instance) (dependencies : List Nat) :
    Except Failure Task :=
  match components.find inst.kind with
  | .ok component =>
      .ok ⟨inst, dependencies, component.observed,
        .unstarted (component.routine inst.id inst.config)⟩
  | .error problem => .error (.ofProblem .emission (problem.located inst.path))

def tasksOf (components : Components) (ordered : Ordered) : Except Failure (List Task) :=
  ordered.instances.zipIdx.mapM fun (inst, position) =>
    taskOf components inst (ordered.dependenciesOf position)

/-- Emits ordered instances, with names given out from a table. -/
def emit (components : Components) (names : NameTable) (ordered : Ordered) : Outcome :=
  match tasksOf components ordered with
  | .ok tasks => (start names tasks).run
  | .error failure => ⟨.error failure, []⟩

end Schedule

end Firmware
