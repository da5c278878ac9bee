import Firmware.Role
import Firmware.Schedule.Task
/-!
Schedules of emission routines.  Routines run one at a time.  A routine starts once
those of all instances it depends on have ended, and one that waits for a variable
goes on once the routine declaring it has ended.  Of the routines that can go on
the earliest does; only when there is none, the earliest that can start does.
-/

namespace Firmware

/-- The tasks of a run and what they share. -/
structure Schedule where
  tasks : List Task
  shared : Shared

structure Outcome where
  result : Except Failure Code
  trace : List Entry

namespace Schedule

def start (names : NameTable) (tasks : List Task) : Schedule :=
  ⟨tasks, ⟨.empty, names, [], []⟩⟩

def hasEnded (schedule : Schedule) (position : Nat) : Bool :=
  schedule.tasks[position]?.any Task.hasEnded

def next? (schedule : Schedule) : Option Nat :=
  match schedule.tasks.findIdx? (Task.canResume schedule.shared.published) with
  | some position => some position
  | none => schedule.tasks.findIdx? (Task.canStart schedule.hasEnded)

def advance (schedule : Schedule) (position : Nat) (task : Task) (progress : Progress)
    (shared : Shared) : Schedule :=
  ⟨schedule.tasks.set position { task with progress }, shared⟩

/-- What follows the end of a routine: the code of its instance's roles, and the
publication of its variables, the one of the instance last. -/
def conclude (task : Task) (own : Local) (shared : Shared) : Except Failure Shared :=
  match Capability.emitAll task.inst shared.code with
  | .error fault => .error (own.failure fault)
  | .ok code =>
      .ok ((own.declared ++ [task.inst.id]).foldl Shared.publish { shared with code })

/-- What polling comes to: a further schedule, a failure, or nothing left to
poll. -/
inductive Move
  | next (schedule : Schedule)
  | failed (failure : Failure) (shared : Shared)
  | settled

/-- Takes in the result of polling the task at a position. -/
def absorb (schedule : Schedule) (position : Nat) (task : Task) : Poll → Move
  | .ended own shared =>
      match conclude task own shared with
      | .ok shared => .next (schedule.advance position task .ended shared)
      | .error failure => .failed failure shared
  | .failed failure shared => .failed failure shared
  | .paused pause rest own shared =>
      .next (schedule.advance position task (.parked pause rest own) shared)

/-- Polls the next task, if there is one. -/
def step (schedule : Schedule) : Move :=
  match schedule.next? with
  | none => .settled
  | some position =>
      match schedule.tasks[position]? with
      | none => .settled
      | some task =>
          match task.poll? position schedule.shared with
          | none => .settled
          | some poll => schedule.absorb position task poll

/-- What remains to be done, counted in steps. -/
def weight (schedule : Schedule) : Nat :=
  schedule.tasks.foldr (fun task total => task.weight + total) 0

/-- The problem of a task that waits for a variable nobody can declare any more. -/
def stalledProblem? (task : Task) : Option Problem :=
  task.pause?.map fun pause =>
    ⟨.unresolvedId, some task.inst.path,
      "`" ++ task.inst.id.name ++ "` waits for `" ++ pause.name
        ++ "`, which is never declared"⟩

/-- What a schedule comes to in which nothing can be polled: tasks that still wait
have stalled. -/
def verdict (schedule : Schedule) : Except Failure Code :=
  match schedule.tasks.filterMap stalledProblem? with
  | [] => .ok schedule.shared.code
  | problems => .error (.ofProblems .emission problems)

end Schedule

end Firmware
