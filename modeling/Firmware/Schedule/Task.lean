import Firmware.Instance
import Firmware.Routine.Poll
/-!
Tasks: instances whose code is to be emitted, and how far each of them has come.
-/

namespace Firmware

/-- How far the routine of a task has come. -/
inductive Progress
  | unstarted (script : List Step)
  | parked (pause : Pause) (rest : List Step) (own : Local)
  | ended

/-- An instance whose code is to be emitted. -/
structure Task where
  inst : Instance
  dependencies : List Nat
  observed : Bool
  progress : Progress

namespace Task

def hasEnded (task : Task) : Bool :=
  match task.progress with
  | .ended => true
  | _ => false

def pause? (task : Task) : Option Pause :=
  match task.progress with
  | .parked pause _ _ => some pause
  | _ => none

/-- Whether a task waits for a variable that has become visible. -/
def canResume (published : Table String Identifier) (task : Task) : Bool :=
  task.pause?.any fun pause => Table.contains published pause.name

/-- Whether a task has not been started although all it depends on has ended. -/
def canStart (hasEnded : Nat → Bool) (task : Task) : Bool :=
  match task.progress with
  | .unstarted _ => task.dependencies.all hasEnded
  | _ => false

/-- What remains to be done, counted in steps. -/
def weight (task : Task) : Nat :=
  match task.progress with
  | .unstarted script => script.length + 1
  | .parked _ rest _ => rest.length + 1
  | .ended => 0

def initialLocal (task : Task) (position : Nat) : Local where
  task := position
  id := task.inst.id
  config := task.inst.config
  observed := task.observed
  bindings := []
  declared := []
  mark := none

/-- Polls a task: starts it, or lets it go on if what it waits for is visible. -/
def poll? (task : Task) (position : Nat) (shared : Shared) : Option Poll :=
  match task.progress with
  | .unstarted script =>
      let own := task.initialLocal position
      some (Step.run own (own.record .started shared) script)
  | .parked pause rest own =>
      (Table.get? shared.published pause.name).map fun id =>
        Step.resume pause id own shared rest
  | .ended => none

end Task

end Firmware
