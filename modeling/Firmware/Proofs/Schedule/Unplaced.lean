import Firmware.Proofs.Graph.Unplaced
import Firmware.Proofs.Routine.Unplaced
import Firmware.Proofs.Schedule.Turns
/-!
Schedules without regard to locations.  What is polled next, what the poll does and what the
roles of an instance add after it depend on no location, so a run without locations goes
through the same steps to the same code, or fails for the same reasons.
-/

namespace Firmware

/-- An outcome with all causes of its failure moved to the root of the document. -/
def Outcome.unplaced (outcome : Outcome) : Outcome :=
  { outcome with result := outcome.result.mapError Failure.unplaced }

def Progress.content : Progress → Progress
  | .parked pause rest own => .parked pause rest own.content
  | progress => progress

/-- The task with its configuration moved to the root of the document. -/
def Task.content (task : Task) : Task :=
  { task with inst := task.inst.content, progress := task.progress.content }

/-- What the roles of an instance add does not depend on where the instance is. -/
theorem Capability.emitAll_content (inst : Instance) (code : Code) :
    emitAll inst.content code = emitAll inst code := by
  have hregister : ∀ code, Role.registerComponent inst.content code =
      Role.registerComponent inst code := by
    intro code
    rw [Role.registerComponent, Role.registerComponent, Instance.content,
      Node.bind_get?_content Value.number?_content]
    rfl
  have hsensor : Role.sensorStatements inst.content = Role.sensorStatements inst := by
    simp only [Role.sensorStatements, Role.flag, Role.filledText?, Instance.content,
      Node.bind_get?_content Value.text?_content, Node.bind_get?_content Value.bool?_content,
      Node.bind_get?_content Value.integer?_content,
      Node.bind_get?_content Value.milliseconds?_content]
    rfl
  have hemit : emit inst.content = emit inst := by
    funext code capability
    cases capability with
    | schedulable => exact hregister code
    | measurable => rw [emit, emit, hsensor]
  rw [emitAll, emitAll, hemit]
  rfl

namespace Task

theorem hasEnded_content (task : Task) : task.content.hasEnded = task.hasEnded := by
  cases task with
  | mk inst dependencies observed progress => cases progress <;> rfl

theorem pause?_content (task : Task) : task.content.pause? = task.pause? := by
  cases task with
  | mk inst dependencies observed progress => cases progress <;> rfl

theorem canResume_content (published : Table String Identifier) (task : Task) :
    task.content.canResume published = task.canResume published := by
  rw [canResume, canResume, pause?_content]

theorem canStart_content (hasEnded : Nat → Bool) (task : Task) :
    task.content.canStart hasEnded = task.canStart hasEnded := by
  cases task with
  | mk inst dependencies observed progress => cases progress <;> rfl

theorem poll?_content (task : Task) (position : Nat) (shared : Shared) :
    task.content.poll? position shared.unplaced =
      (task.poll? position shared).map Poll.unplaced := by
  obtain ⟨inst, dependencies, observed, progress⟩ := task
  cases progress with
  | unstarted script =>
      let task : Task := ⟨inst, dependencies, observed, .unstarted script⟩
      let own := task.initialLocal position
      exact congrArg some (Step.run_unplaced script own (own.record .started shared))
  | parked pause rest own =>
      have hsame : shared.unplaced.published = shared.published := rfl
      simp only [poll?, content, Progress.content, hsame, Option.map_map]
      exact congrArg (Option.map · _) (funext fun id => Step.resume_unplaced pause id own shared rest)
  | ended => rfl

end Task

namespace Schedule

def unplaced (schedule : Schedule) : Schedule :=
  ⟨schedule.tasks.map Task.content, schedule.shared.unplaced⟩

def Move.unplaced : Move → Move
  | .next schedule => .next schedule.unplaced
  | .failed failure shared => .failed failure.unplaced shared.unplaced
  | .settled => .settled

variable {schedule : Schedule}

theorem hasEnded_unplaced (schedule : Schedule) :
    schedule.unplaced.hasEnded = schedule.hasEnded := by
  funext position
  rw [hasEnded, hasEnded, unplaced, List.getElem?_map, Option.any_map]
  exact congrArg (Option.any · _) (funext Task.hasEnded_content)

theorem next?_unplaced (schedule : Schedule) : schedule.unplaced.next? = schedule.next? := by
  have hresume : ∀ published, schedule.unplaced.tasks.findIdx? (Task.canResume published) =
      schedule.tasks.findIdx? (Task.canResume published) := by
    intro published
    rw [unplaced, List.findIdx?_map]
    exact congrArg (List.findIdx? · _) (funext (Task.canResume_content published))
  have hstart : ∀ hasEnded, schedule.unplaced.tasks.findIdx? (Task.canStart hasEnded) =
      schedule.tasks.findIdx? (Task.canStart hasEnded) := by
    intro hasEnded
    rw [unplaced, List.findIdx?_map]
    exact congrArg (List.findIdx? · _) (funext (Task.canStart_content hasEnded))
  rw [next?, next?, hresume, hstart, hasEnded_unplaced]
  rfl

theorem publish_unplaced (shared : Shared) (id : Identifier) :
    shared.unplaced.publish id = (shared.publish id).unplaced := by
  rw [Shared.publish, Shared.publish, apply_ite Shared.unplaced]
  rfl

theorem conclude_content (task : Task) (own : Local) (shared : Shared) :
    conclude task.content own.content shared.unplaced =
      ((conclude task own shared).map Shared.unplaced).mapError Failure.unplaced := by
  have hcode : shared.unplaced.code = shared.code := rfl
  rw [conclude, conclude, Task.content, Capability.emitAll_content, hcode]
  cases Capability.emitAll task.inst shared.code with
  | error fault => exact congrArg Except.error (own.failure_content fault)
  | ok code =>
      have hpublish : ∀ ids (state : Shared), List.foldl Shared.publish state.unplaced ids =
          (List.foldl Shared.publish state ids).unplaced :=
        fun _ _ => List.foldl_hom Shared.unplaced publish_unplaced
      exact congrArg Except.ok (hpublish (own.declared ++ [task.inst.id]) { shared with code })

theorem advance_unplaced (schedule : Schedule) (position : Nat) (task : Task)
    (progress : Progress) (shared : Shared) :
    schedule.unplaced.advance position task.content progress.content shared.unplaced =
      (schedule.advance position task progress shared).unplaced := by
  rw [advance, advance, unplaced, unplaced, List.map_set]
  rfl

theorem absorb_unplaced (schedule : Schedule) (position : Nat) (task : Task) (poll : Poll) :
    schedule.unplaced.absorb position task.content poll.unplaced =
      (schedule.absorb position task poll).unplaced := by
  cases poll with
  | ended own shared =>
      rw [absorb, Poll.unplaced, absorb, conclude_content]
      cases conclude task own shared with
      | error failure => rfl
      | ok final => exact congrArg Move.next (advance_unplaced schedule position task .ended final)
  | failed failure shared => rfl
  | paused pause rest own shared =>
      exact congrArg Move.next
        (advance_unplaced schedule position task (.parked pause rest own) shared)

theorem step_unplaced (schedule : Schedule) : schedule.unplaced.step = schedule.step.unplaced := by
  rw [step, step, next?_unplaced]
  cases schedule.next? with
  | none => rfl
  | some position =>
      have htask : schedule.unplaced.tasks[position]? =
          schedule.tasks[position]?.map Task.content := List.getElem?_map
      have hshared : schedule.unplaced.shared = schedule.shared.unplaced := rfl
      simp only [htask, hshared]
      cases schedule.tasks[position]? with
      | none => rfl
      | some task =>
          simp only [Option.map_some, Task.poll?_content]
          cases task.poll? position schedule.shared with
          | none => rfl
          | some poll => exact absorb_unplaced schedule position task poll

theorem verdict_unplaced (schedule : Schedule) :
    schedule.unplaced.verdict = schedule.verdict.mapError Failure.unplaced := by
  have hstalled : schedule.unplaced.tasks.filterMap stalledProblem? =
      (schedule.tasks.filterMap stalledProblem?).map Problem.unplaced := by
    rw [unplaced, List.filterMap_map, List.map_filterMap]
    refine List.filterMap_congr fun task _ => ?_
    rw [Function.comp_apply, stalledProblem?, stalledProblem?, Task.pause?_content, Option.map_map]
    rfl
  rw [verdict, verdict, hstalled]
  cases schedule.tasks.filterMap stalledProblem? with
  | nil => rfl
  | cons problem rest =>
      exact congrArg Except.error (Failure.unplaced_ofProblems .emission (problem :: rest)).symm

/-- A run comes to the same with and without locations. -/
theorem run_unplaced (schedule : Schedule) : schedule.unplaced.run = schedule.run.unplaced := by
  induction schedule using run.induct with
  | case1 schedule next hstep _ ih =>
      have hstep' : schedule.unplaced.step = .next next.unplaced := by
        rw [step_unplaced, hstep]
        rfl
      rw [run_eq_run_of_step hstep, run_eq_run_of_step hstep', ih]
  | case2 schedule failure shared hstep =>
      have hstep' : schedule.unplaced.step = .failed failure.unplaced shared.unplaced := by
        rw [step_unplaced, hstep]
        rfl
      rw [run_eq_of_failed hstep, run_eq_of_failed hstep']
      rfl
  | case3 schedule hstep =>
      have hstep' : schedule.unplaced.step = .settled := by
        rw [step_unplaced, hstep]
        rfl
      rw [run_eq_of_settled hstep, run_eq_of_settled hstep', verdict_unplaced]
      rfl

end Schedule

/-- Whether a routine takes the same steps wherever its instance is. -/
def Routine.IgnoresPlaces (routine : Routine) : Prop :=
  ∀ (id : Identifier) (left right : Node), left.content = right.content →
    routine id left = routine id right

/-- Whether the routines of all registered components do. -/
def Components.IgnorePlaces (components : Components) : Prop :=
  ∀ {kind : String} {component : Component}, components.find kind = .ok component →
    component.routine.IgnoresPlaces

namespace Schedule

variable {components : Components}

theorem taskOf_content (hroutines : components.IgnorePlaces) (inst : Instance)
    (dependencies : List Nat) :
    taskOf components inst.content dependencies =
      ((taskOf components inst dependencies).map Task.content).mapError Failure.unplaced := by
  have hkind : inst.content.kind = inst.kind := rfl
  rw [taskOf, taskOf, hkind]
  cases hfound : components.find inst.kind with
  | error problem =>
      exact congrArg Except.error
        (Failure.unplaced_ofProblem .emission (problem.located inst.path)).symm
  | ok component =>
      have hsteps : component.routine inst.id inst.config.content =
          component.routine inst.id inst.config :=
        hroutines hfound inst.id _ _ inst.config.content_content
      exact congrArg
        (fun script => Except.ok (Task.mk inst.content dependencies component.observed
          (.unstarted script))) hsteps

theorem tasksOf_content (hroutines : components.IgnorePlaces) (ordered : Ordered) :
    tasksOf components ordered.content =
      ((tasksOf components ordered).map (List.map Task.content)).mapError Failure.unplaced := by
  rw [tasksOf, tasksOf, Ordered.content, List.zipIdx_map]
  exact mapM_map_eq (fun (inst, position) => taskOf_content hroutines inst _) _

/-- Instances are emitted alike with and without locations. -/
theorem emit_content (hroutines : components.IgnorePlaces) (names : NameTable)
    (ordered : Ordered) :
    emit components names.unplaced ordered.content = (emit components names ordered).unplaced := by
  rw [emit, emit, tasksOf_content hroutines]
  cases tasksOf components ordered with
  | error failure => rfl
  | ok tasks => exact run_unplaced (start names tasks)

end Schedule

end Firmware
