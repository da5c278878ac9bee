import Firmware.Proofs.Schedule.Stall
import Firmware.Proofs.Schedule.Turns
/-!
Runs that stall.  A run that can go no further has started instances that wait for names which
are not visible, and has not started those that depend on what did not complete.  It fails
with one cause for each instance that waits, and it fails like this whenever it comes to such
a state.
-/

namespace Firmware

/-- The name that a task was last found waiting for, while it is parked. -/
def Task.awaited? (task : Task) : Option String :=
  match task.progress with
  | .parked _ _ own => own.mark
  | _ => none

/-- Whether an instance was started and did not complete. -/
def Deed.Halted (deeds : List Deed) (position : Nat) : Prop :=
  .started ∈ actsAt position deeds ∧ .ended ∉ actsAt position deeds

structure Waiting where
  position : Nat
  inst : Instance
  name : String

/-- The cause of a failure for an instance that waits in vain. -/
def Waiting.problem (waiting : Waiting) : Problem :=
  ⟨.unresolvedId, some waiting.inst.path,
    "`" ++ waiting.inst.id.name ++ "` waits for `" ++ waiting.name
      ++ "`, which is never declared"⟩

namespace Task

variable {task : Task} {script : List Step} {acts : List Act}

theorem Accounts.ended_mem_iff (h : task.Accounts script acts) :
    .ended ∈ acts ↔ task.progress = .ended := by
  have hinner : ∀ {body : List Act}, (∀ act ∈ body, act.isInner = true) → .ended ∉ body :=
    fun hall hmem => Bool.false_ne_true (hall _ hmem)
  cases h with
  | unstarted hprogress => simp [hprogress]
  | parked hprogress hall => simp [hprogress, hinner hall]
  | ended hprogress => simp [hprogress]

theorem Accounts.started_mem_iff (h : task.Accounts script acts) :
    .started ∈ acts ↔ ∀ script, task.progress ≠ .unstarted script := by
  cases h with
  | unstarted hprogress => simp [hprogress]
  | parked hprogress => simp [hprogress]
  | ended hprogress => simp [hprogress]

end Task

/-- A routine that has to wait is marked with the name that ends its pause. -/
theorem Step.Waits.mark {own own' : Local} {shared shared' : Shared} {step : Step} {pause : Pause}
    (h : Waits own shared step pause own' shared') : own'.mark = some pause.name := by
  cases h with
  | await => rfl
  | suspend hmarked => exact hmarked

namespace Schedule

variable {names : NameTable} {tasks : List Task} {deeds more : List Deed}
  {schedule schedule' : Schedule} {position : Nat} {failure : Failure}

/-- A state in which a run can go no further although it has not completed. -/
structure Stuck (schedule : Schedule) (deeds : List Deed) : Prop where
  halted : ∃ position, Deed.Halted deeds position
  /-- No instance that was started and did not complete can go on. -/
  hidden : ∀ {position : Nat} {task : Task} {name : String},
    schedule.tasks[position]? = some task → Deed.Halted deeds position →
      task.awaited? = some name → Table.contains schedule.shared.published name = false
  /-- No instance that was not started can be. -/
  blocked : ∀ {position : Nat} {task : Task}, schedule.tasks[position]? = some task →
    .started ∉ Deed.actsAt position deeds →
      ∃ dependency ∈ task.dependencies, .ended ∉ Deed.actsAt dependency deeds

/-- A list of the instances that were started and did not complete, each once and with the
name that it is marked as waiting for, which is not visible. -/
structure Lists (schedule : Schedule) (deeds : List Deed) (listed : List Waiting) : Prop where
  increasing : (listed.map (·.position)).Pairwise (· < ·)
  complete : ∀ position, position ∈ listed.map (·.position) ↔ Deed.Halted deeds position
  marked : ∀ entry ∈ listed, ∃ task, schedule.tasks[entry.position]? = some task ∧
    task.inst = entry.inst ∧ task.awaited? = some entry.name
  hidden : ∀ entry ∈ listed, Table.contains schedule.shared.published entry.name = false

/-- Parked tasks are marked with the names that end their pauses. -/
def IsMarked (schedule : Schedule) : Prop :=
  ∀ (position : Nat) (task : Task), schedule.tasks[position]? = some task →
    task.awaited? = task.pause?.map Pause.name

theorem isMarked_start (names : NameTable) (hfresh : AllUnstarted tasks) :
    (start names tasks).IsMarked := by
  intro position task hpresent
  obtain ⟨script, hprogress⟩ := hfresh task (List.mem_of_getElem? hpresent)
  simp [Task.awaited?, Task.pause?, hprogress]

/-- Every poll keeps parked tasks marked. -/
theorem IsMarked.polls (h : schedule.IsMarked) (hpolls : Polls schedule more schedule') :
    schedule'.IsMarked := by
  intro position task hpresent
  cases hpolls with
  | ends =>
      rcases getElem?_advance_cases hpresent with ⟨_, rfl⟩ | ⟨_, hother⟩
      · rfl
      · exact h _ _ hother
  | parks _ _ _ _ hwaits =>
      rcases getElem?_advance_cases hpresent with ⟨_, rfl⟩ | ⟨_, hother⟩
      · exact hwaits.mark
      · exact h _ _ hother

theorem Reaches.isMarked (h : Reaches (start names tasks) deeds schedule)
    (hfresh : AllUnstarted tasks) : schedule.IsMarked := by
  induction h with
  | refl => exact isMarked_start names hfresh
  | poll _ hpolls ih => exact ih.polls hpolls

theorem Accounted.actsAt_eq_nil (h : Accounted tasks deeds schedule)
    (hnone : schedule.tasks[position]? = none) : Deed.actsAt position deeds = [] := by
  refine List.filterMap_eq_nil_iff.mpr fun deed hdeed => if_neg ?_
  rintro rfl
  obtain ⟨_, hpresent, _⟩ := h.inst deed hdeed
  simp [hnone] at hpresent

theorem Accounted.ended_mem_iff (h : Accounted tasks deeds schedule) :
    .ended ∈ Deed.actsAt position deeds ↔ schedule.hasEnded position = true := by
  rw [hasEnded_eq_true_iff]
  cases hpresent : schedule.tasks[position]? with
  | none => simp [h.actsAt_eq_nil hpresent]
  | some task =>
      obtain ⟨_, _, haccounts⟩ := h.accounts hpresent
      simp [haccounts.ended_mem_iff]

/-- The instances that were started and did not complete are those of parked tasks. -/
theorem Accounted.halted_iff (h : Accounted tasks deeds schedule) :
    Deed.Halted deeds position ↔
      ∃ task pause, schedule.tasks[position]? = some task ∧ task.pause? = some pause := by
  cases hpresent : schedule.tasks[position]? with
  | none => simp [Deed.Halted, h.actsAt_eq_nil hpresent]
  | some task =>
      obtain ⟨_, _, haccounts⟩ := h.accounts hpresent
      rw [Deed.Halted, haccounts.started_mem_iff, haccounts.ended_mem_iff]
      cases hprogress : task.progress <;> simp [Task.pause?, hprogress]

/-- The instances of parked tasks, with the names that end their pauses. -/
def waiting (schedule : Schedule) : List Waiting :=
  schedule.tasks.zipIdx.filterMap fun (task, position) =>
    task.pause?.map fun pause => ⟨position, task.inst, pause.name⟩

theorem mem_waiting {entry : Waiting} : entry ∈ schedule.waiting ↔
    ∃ task pause, schedule.tasks[entry.position]? = some task ∧ task.pause? = some pause ∧
      entry.inst = task.inst ∧ entry.name = pause.name := by
  simp only [waiting, List.mem_filterMap, Prod.exists, List.mem_zipIdx_iff_getElem?,
    Option.map_eq_some_iff]
  constructor
  · rintro ⟨task, _, hpresent, pause, hpause, rfl⟩
    exact ⟨task, pause, hpresent, hpause, rfl, rfl⟩
  · obtain ⟨position, inst, name⟩ := entry
    rintro ⟨task, pause, hpresent, hpause, rfl, rfl⟩
    exact ⟨task, position, hpresent, pause, hpause, rfl⟩

/-- A schedule in which nothing can be polled fails exactly if some task is parked. -/
theorem verdict_eq_error_iff : schedule.verdict = .error failure ↔
    schedule.waiting ≠ [] ∧
      failure = .ofProblems .emission (schedule.waiting.map Waiting.problem) := by
  have hproblems : schedule.tasks.filterMap stalledProblem? =
      schedule.waiting.map Waiting.problem := by
    conv_lhs => rw [← List.zipIdx_map_fst 0 schedule.tasks, List.filterMap_map]
    rw [waiting, List.map_filterMap]
    refine List.filterMap_congr fun entry _ => ?_
    simp [stalledProblem?, Waiting.problem, Function.comp_def]
  rw [verdict, hproblems]
  cases schedule.waiting <;> simp [eq_comm]

/-- What can be reached is stuck exactly if nothing can be polled and some task is parked. -/
theorem Accounted.stuck_iff (h : Accounted tasks deeds schedule) (hmarked : schedule.IsMarked) :
    schedule.Stuck deeds ↔ schedule.step = .settled ∧ schedule.waiting ≠ [] := by
  rw [step_eq_settled_iff]
  constructor
  · intro hstuck
    constructor
    · intro task hmem hallowed
      obtain ⟨position, hpresent⟩ := List.mem_iff_getElem?.mp hmem
      obtain ⟨_, _, haccounts⟩ := h.accounts hpresent
      cases hprogress : task.progress with
      | unstarted script =>
          have hnew : .started ∉ Deed.actsAt position deeds := by
            simp [haccounts.started_mem_iff, hprogress]
          obtain ⟨dependency, hdependency, hrunning⟩ := hstuck.blocked hpresent hnew
          have hended := h.hasEnded_dependencies hpresent hallowed dependency hdependency
          exact hrunning (h.ended_mem_iff.mpr hended)
      | parked pause rest own =>
          have hpause : task.pause? = some pause := by simp [Task.pause?, hprogress]
          have hhidden := hstuck.hidden hpresent (h.halted_iff.mpr ⟨task, pause, hpresent, hpause⟩)
            ((hmarked _ _ hpresent).trans (congrArg (Option.map Pause.name) hpause))
          simp [CanPoll, Task.canResume, Task.canStart, hpause, hprogress, hhidden] at hallowed
      | ended => exact hallowed.progress_ne hprogress
    · obtain ⟨position, hhalted⟩ := hstuck.halted
      obtain ⟨task, pause, hpresent, hpause⟩ := h.halted_iff.mp hhalted
      have hlisted : ⟨position, task.inst, pause.name⟩ ∈ schedule.waiting :=
        mem_waiting.mpr ⟨task, pause, hpresent, hpause, rfl, rfl⟩
      exact List.ne_nil_of_mem hlisted
  · rintro ⟨hsettled, hne⟩
    obtain ⟨entry, hentry⟩ := List.exists_mem_of_ne_nil _ hne
    obtain ⟨task, pause, hpresent, hpause, _⟩ := mem_waiting.mp hentry
    refine ⟨⟨entry.position, h.halted_iff.mpr ⟨task, pause, hpresent, hpause⟩⟩, ?_, ?_⟩
    · intro position task name hpresent _ hawaited
      have hidle := hsettled task (List.mem_of_getElem? hpresent)
      obtain ⟨pause, hpause, rfl⟩ :=
        Option.map_eq_some_iff.mp ((hmarked _ _ hpresent).symm.trans hawaited)
      by_contra hvisible
      exact hidle (.inl (by simpa [Task.canResume, hpause] using hvisible))
    · intro position task hpresent hnew
      have hidle := hsettled task (List.mem_of_getElem? hpresent)
      obtain ⟨_, _, haccounts⟩ := h.accounts hpresent
      simp only [haccounts.started_mem_iff, ne_eq, not_forall, not_not] at hnew
      obtain ⟨script, hprogress⟩ := hnew
      by_contra hall
      simp only [h.ended_mem_iff, not_exists, not_and, not_not] at hall
      exact hidle (.inr (by simpa [Task.canStart, hprogress] using hall))

/-- Where nothing can be polled, the instances that wait are those that are listed. -/
theorem Accounted.lists_waiting (h : Accounted tasks deeds schedule) (hmarked : schedule.IsMarked)
    (hsettled : schedule.step = .settled) : schedule.Lists deeds schedule.waiting where
  increasing := by
    rw [List.pairwise_map, waiting, List.pairwise_filterMap]
    refine (pairwise_lt_zipIdx schedule.tasks).imp fun hlt first hfirst second hsecond => ?_
    obtain ⟨_, _, rfl⟩ := Option.map_eq_some_iff.mp hfirst
    obtain ⟨_, _, rfl⟩ := Option.map_eq_some_iff.mp hsecond
    exact hlt
  complete position := by
    rw [h.halted_iff, List.mem_map]
    constructor
    · rintro ⟨entry, hentry, rfl⟩
      obtain ⟨task, pause, hpresent, hpause, _⟩ := mem_waiting.mp hentry
      exact ⟨task, pause, hpresent, hpause⟩
    · rintro ⟨task, pause, hpresent, hpause⟩
      exact ⟨⟨position, task.inst, pause.name⟩,
        mem_waiting.mpr ⟨task, pause, hpresent, hpause, rfl, rfl⟩, rfl⟩
  marked entry hentry := by
    obtain ⟨task, pause, hpresent, hpause, hinst, hname⟩ := mem_waiting.mp hentry
    refine ⟨task, hpresent, hinst.symm, ?_⟩
    rw [hmarked _ _ hpresent, hpause, hname, Option.map_some]
  hidden entry hentry := by
    obtain ⟨task, pause, hpresent, hpause, _, hname⟩ := mem_waiting.mp hentry
    have hidle := step_eq_settled_iff.mp hsettled task (List.mem_of_getElem? hpresent)
    by_contra hvisible
    exact hidle (.inl (by simpa [Task.canResume, hpause, hname] using hvisible))

/-- A poll that fails does so for one problem, and not because of a name. -/
theorem exists_fault_of_failed {own : Local} {shared shared' : Shared} {steps : List Step}
    (h : Step.run own shared steps = .failed failure shared') :
    ∃ (last : Local) (fault : RoutineFault), failure = last.failure fault := by
  fun_induction Step.run own shared steps with
  | case2 _ _ _ _ _ _ _ _ _ _ _ ih => exact ih h
  | case5 own _ _ _ => exact ⟨own, _, (Poll.failed.inj h).1.symm⟩
  | case6 _ _ _ _ _ _ _ ih => exact ih h
  | case7 own _ _ _ fault _ => exact ⟨own, fault, (Poll.failed.inj h).1.symm⟩
  | _ => simp at h

theorem exists_fault_of_step {shared : Shared} (h : schedule.step = .failed failure shared) :
    ∃ (own : Local) (fault : RoutineFault), failure = own.failure fault := by
  obtain ⟨hsettled, _⟩ | ⟨position, task, poll, _, _, hpoll, hstep⟩ := schedule.step_cases
  · simp [hsettled] at h
  · rw [hstep] at h
    cases poll with
    | paused => simp [absorb] at h
    | failed failed' shared' =>
        obtain ⟨rfl, _⟩ := Move.failed.inj h
        obtain ⟨_, _, _, _, _, hrun⟩ := Task.poll?_eq_some_iff.mp hpoll
        exact exists_fault_of_failed hrun
    | ended own ended =>
        cases hroles : Capability.emitAll task.inst ended.code with
        | error fault =>
            simp only [absorb, conclude, hroles] at h
            exact ⟨own, fault, (Move.failed.inj h).1.symm⟩
        | ok code => simp [absorb, conclude, hroles] at h

/-- A run may be told from any schedule on its way. -/
theorem Runs.run_eq (h : Runs schedule deeds schedule') : schedule.run = schedule'.run := by
  induction h with
  | refl => rfl
  | poll _ _ hmoved ih => exact ih.trans (run_eq_run_of_step hmoved)

/-- A run that fails because names are never declared has come to a state in which it is
stuck, and has one cause for each instance that was started and did not complete.  Whenever a
run comes to such a state, it fails in this way. -/
theorem run_stalls_exactly (names : NameTable) (hfresh : AllUnstarted tasks) :
    (∀ failure, (start names tasks).run.result = .error failure →
      (∃ cause ∈ failure.causes, cause.kind = .unresolvedId) →
        ∃ deeds final listed, Runs (start names tasks) deeds final ∧ final.Stuck deeds ∧
          listed ≠ [] ∧ final.Lists deeds listed ∧
          failure = .ofProblems .emission (listed.map Waiting.problem)) ∧
      ∀ deeds final, Runs (start names tasks) deeds final → final.Stuck deeds →
        ∃ listed, listed ≠ [] ∧ final.Lists deeds listed ∧
          (start names tasks).run.result =
            .error (.ofProblems .emission (listed.map Waiting.problem)) := by
  constructor
  · rintro failure hfails ⟨cause, hcause, hkind⟩
    obtain ⟨deeds, final, hruns, ⟨hsettled, hrun⟩ | ⟨failure', shared, hfailed, hrun⟩⟩ :=
      exists_runs (start names tasks)
    · rw [hrun] at hfails
      obtain ⟨hne, hfailure⟩ := verdict_eq_error_iff.mp hfails
      have haccounted := hruns.reaches.accounted hfresh
      have hmarked := hruns.reaches.isMarked hfresh
      exact ⟨deeds, final, _, hruns, (haccounted.stuck_iff hmarked).mpr ⟨hsettled, hne⟩, hne,
        haccounted.lists_waiting hmarked hsettled, hfailure⟩
    · rw [hrun] at hfails
      obtain rfl := Except.error.inj hfails
      obtain ⟨own, fault, rfl⟩ := exists_fault_of_step hfailed
      rw [List.mem_singleton.mp hcause] at hkind
      simp at hkind
  · intro deeds final hruns hstuck
    have haccounted := hruns.reaches.accounted hfresh
    have hmarked := hruns.reaches.isMarked hfresh
    obtain ⟨hsettled, hne⟩ := (haccounted.stuck_iff hmarked).mp hstuck
    refine ⟨_, hne, haccounted.lists_waiting hmarked hsettled, ?_⟩
    rw [hruns.run_eq, run_eq_of_settled hsettled]
    exact verdict_eq_error_iff.mpr ⟨hne, rfl⟩

/-- The inlet and the drain wait for names that nobody declares, and the outlet depends on the
inlet. -/
def cisternTasks : List Task :=
  [⟨valve "inlet", [], true, .unstarted [.await "pump" none]⟩,
    ⟨valve "outlet", [0], true, .unstarted [.act (.declare .own [])]⟩,
    ⟨valve "drain", [], true, .unstarted [.act (.peek "float"), .suspend]⟩]

def cisternCauses : List Problem :=
  [⟨.unresolvedId, some (Path.root.field "inlet"),
      "`inlet` waits for `pump`, which is never declared"⟩,
    ⟨.unresolvedId, some (Path.root.field "drain"),
      "`drain` waits for `float`, which is never declared"⟩]

theorem run_cisternTasks :
    (start .empty cisternTasks).run.result = .error (.ofProblems .emission cisternCauses) := by
  have hcauses : (match (start .empty cisternTasks).run.result with
      | .error failure => failure == .ofProblems .emission cisternCauses
      | .ok _ => false) = true := by decide +kernel
  split at hcauses
  · next failure hfailure => rw [hfailure, beq_iff_eq.mp hcauses]
  · simp at hcauses

/-- The outlet is not among the causes, because it was never started. -/
theorem cistern_stalls :
    AllUnstarted cisternTasks ∧ ∃ deeds final listed,
      Runs (start .empty cisternTasks) deeds final ∧ final.Stuck deeds ∧
        final.Lists deeds listed ∧ listed.map Waiting.problem = cisternCauses := by
  have hfresh : AllUnstarted cisternTasks := by simp [AllUnstarted, cisternTasks]
  obtain ⟨deeds, final, listed, hruns, hstuck, _, hlists, hfailure⟩ :=
    (run_stalls_exactly .empty hfresh).1 _ run_cisternTasks ⟨_, List.mem_cons_self, rfl⟩
  exact ⟨hfresh, deeds, final, listed, hruns, hstuck, hlists,
    (congrArg Failure.causes hfailure).symm⟩

end Schedule

end Firmware
