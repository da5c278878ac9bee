import Firmware.Proofs.Schedule.Lookups
/-!
How many polls a run makes.  Each poll starts a task or moves one past the step at which it
waits, so that a run makes at most one poll for each task and one for each step of the scripts
at which a routine may have to wait.
-/

namespace Firmware

def Step.mayWait : Step → Bool
  | .act _ => false
  | .await _ _ | .suspend => true

theorem Pause.mayWait_step (pause : Pause) : pause.step.mayWait = true := by
  cases pause <;> rfl

namespace Progress

/-- The steps that a task has not come to yet. -/
def remaining : Progress → List Step
  | .unstarted script => script
  | .parked _ rest _ => rest
  | .ended => []

/-- How often a task can still be polled: to start or go on, and after each wait. -/
def pollsLeft : Progress → Nat
  | .unstarted script => 1 + script.countP Step.mayWait
  | .parked _ rest _ => 1 + rest.countP Step.mayWait
  | .ended => 0

/-- Progress made in some steps: all of them are done, or one of them is waited at. -/
inductive Within (steps : List Step) : Progress → Prop
  | ended : Within steps .ended
  | parked {skipped rest : List Step} {pause : Pause} {own : Local}
      (steps_eq : steps = skipped ++ pause.step :: rest) : Within steps (.parked pause rest own)

variable {progress later : Progress}

theorem pollsLeft_of_ne_ended (h : progress ≠ .ended) :
    progress.pollsLeft = 1 + progress.remaining.countP Step.mayWait := by
  cases progress with
  | ended => exact absurd rfl h
  | unstarted | parked => rfl

/-- A task that has made progress has fewer polls left. -/
theorem Within.pollsLeft_lt (h : later.Within progress.remaining) (hne : progress ≠ .ended) :
    later.pollsLeft < progress.pollsLeft := by
  rw [pollsLeft_of_ne_ended hne]
  cases h with
  | ended => exact Nat.lt_add_right _ Nat.zero_lt_one
  | @parked skipped rest pause _ hsteps =>
      rw [hsteps, List.countP_append, List.countP_cons_of_pos pause.mayWait_step, pollsLeft]
      omega

end Progress

namespace Task

variable {task : Task} {position : Nat} {shared shared' : Shared} {act : Act} {own : Local}
  {steps : List Step}

theorem Begins.remaining (h : task.Begins position shared act own shared' steps) :
    task.progress.remaining = steps := by
  cases h with
  | start hfresh => rw [hfresh, Progress.remaining]
  | receive hparked => rw [hparked, Progress.remaining]
  | resume hparked => rw [hparked, Progress.remaining]

/-- A task that waits has executed its script up to what remains. -/
theorem Accounts.steps_append {script rest : List Step} {acts : List Act} {pause : Pause}
    (h : task.Accounts script acts) (hparked : task.progress = .parked pause rest own) :
    acts.filterMap Act.step? ++ rest = script := by
  cases h with
  | unstarted hprogress => simp [hparked] at hprogress
  | ended hprogress => simp [hparked] at hprogress
  | parked hprogress _ hsteps =>
      obtain ⟨-, rfl, -⟩ := Progress.parked.inj (hparked.symm.trans hprogress)
      exact hsteps

end Task

namespace Schedule

variable {names : NameTable} {tasks : List Task} {deeds : List Deed}
  {schedule schedule' : Schedule} {position : Nat} {task : Task} {poll : Poll}

/-- A poll that does not fail makes progress in the steps that remained. -/
theorem exists_within_of_absorb (hpoll : task.poll? position schedule.shared = some poll)
    (habsorb : schedule.absorb position task poll = .next schedule') :
    ∃ progress shared, schedule' = schedule.advance position task progress shared ∧
      progress.Within task.progress.remaining := by
  obtain ⟨act, own, shared, steps, hbegins, hrun⟩ := Task.poll?_eq_some_iff.mp hpoll
  rw [hbegins.remaining]
  cases poll with
  | failed failure shared => simp [absorb] at habsorb
  | ended own' shared' =>
      simp only [absorb] at habsorb
      split at habsorb
      · exact ⟨_, _, (Move.next.inj habsorb).symm, .ended⟩
      · simp at habsorb
  | paused pause rest own' shared' =>
      obtain ⟨passed, last, before, step, hpasses, hwaits⟩ := Step.run_eq_paused_iff.mp hrun
      obtain rfl := hwaits.step_eq
      exact ⟨_, _, (Move.next.inj habsorb).symm, .parked hpasses.map_append.symm⟩

def pollsLeft (schedule : Schedule) : Nat :=
  schedule.tasks.foldr (fun task total => task.progress.pollsLeft + total) 0

theorem pollsLeft_lt_of_step (h : schedule.step = .next schedule') :
    schedule'.pollsLeft < schedule.pollsLeft := by
  obtain ⟨hsettled, _⟩ | ⟨position, task, poll, hpresent, hallowed, hpoll, hstep⟩ :=
    schedule.step_cases
  · simp [hsettled] at h
  · obtain ⟨progress, shared, rfl, hwithin⟩ := exists_within_of_absorb hpoll (hstep ▸ h)
    exact sum_set_lt hpresent (hwithin.pollsLeft_lt hallowed.progress_ne)

theorem pollsLeft_pos (hpresent : schedule.tasks[position]? = some task)
    (hallowed : schedule.CanPoll task) : 0 < schedule.pollsLeft := by
  have hless : Progress.ended.pollsLeft < task.progress.pollsLeft :=
    Progress.Within.ended.pollsLeft_lt hallowed.progress_ne
  have hended : (⟨schedule.tasks.set position { task with progress := .ended }, schedule.shared⟩ :
      Schedule).pollsLeft < schedule.pollsLeft := sum_set_lt hpresent hless
  exact Nat.zero_lt_of_lt hended

/-- The run of a schedule, unless it takes more than a number of polls. -/
def runWithin : Nat → Schedule → Option Outcome
  | 0, schedule =>
      match schedule.step with
      | .settled => some ⟨schedule.verdict, schedule.shared.trace⟩
      | _ => none
  | polls + 1, schedule =>
      match schedule.step with
      | .next schedule' => runWithin polls schedule'
      | .failed failure shared => some ⟨.error failure, shared.trace⟩
      | .settled => some ⟨schedule.verdict, schedule.shared.trace⟩

/-- As many polls as are left are enough. -/
theorem runWithin_eq_run {polls : Nat} (h : schedule.pollsLeft ≤ polls) :
    runWithin polls schedule = some schedule.run := by
  induction polls generalizing schedule with
  | zero =>
      obtain ⟨hsettled, _⟩ | ⟨_, _, _, hpresent, hallowed, _⟩ := schedule.step_cases
      · simp only [runWithin, hsettled, run_eq_of_settled hsettled]
      · have := pollsLeft_pos hpresent hallowed
        omega
  | succ polls ih =>
      cases hstep : schedule.step with
      | next schedule' =>
          have hless := pollsLeft_lt_of_step hstep
          simp only [runWithin, hstep, run_eq_run_of_step hstep]
          exact ih (by omega)
      | failed failure shared => simp only [runWithin, hstep, run_eq_of_failed hstep]
      | settled => simp only [runWithin, hstep, run_eq_of_settled hstep]

/-- At the start each task has one poll left, and one for each step at which its routine may
have to wait. -/
theorem pollsLeft_start (names : NameTable) (hfresh : AllUnstarted tasks) :
    (start names tasks).pollsLeft =
      tasks.length + (tasks.flatMap (·.progress.remaining)).countP Step.mayWait := by
  induction tasks with
  | nil => rfl
  | cons task rest ih =>
      obtain ⟨script, hprogress⟩ := hfresh task List.mem_cons_self
      have hrest := ih fun other hother => hfresh other (.tail _ hother)
      simp only [pollsLeft, start, List.foldr_cons] at hrest ⊢
      rw [hrest, List.flatMap_cons, List.countP_append, List.length_cons, hprogress,
        Progress.pollsLeft, Progress.remaining]
      omega

/-- A task that waits has executed its script up to the step at which it waits. -/
theorem Accounted.script_eq (h : Accounted tasks deeds schedule) (hstops : schedule.AllStop deeds)
    {pause : Pause} {rest : List Step} {own : Local}
    (hpresent : schedule.tasks[position]? = some task)
    (hparked : task.progress = .parked pause rest own) :
    ∃ done, tasks[position]? =
      some { task with progress := .unstarted (done ++ pause.step :: rest) } := by
  obtain ⟨script, horigin, haccounts⟩ := h.accounts hpresent
  obtain ⟨⟨before, last, hacts⟩, _⟩ :=
    hstops _ _ pause hpresent (by simp only [Task.pause?, hparked])
  have hsteps := haccounts.steps_append hparked
  rw [hacts, List.filterMap_append, List.append_assoc] at hsteps
  exact ⟨before.filterMap Act.step?, hsteps ▸ horigin⟩

/-- The next task that is polled makes progress, or the run fails. -/
theorem exists_within_of_step (hnext : schedule.next? = some position)
    (hpresent : schedule.tasks[position]? = some task) (hstep : schedule.step = .next schedule') :
    ∃ progress shared, schedule' = schedule.advance position task progress shared ∧
      progress.Within task.progress.remaining := by
  obtain ⟨found, hfound, hallowed⟩ := canPoll_of_next? hnext
  obtain rfl := Option.some.inj (hpresent.symm.trans hfound)
  obtain ⟨poll, hpoll⟩ := hallowed.exists_poll position
  refine exists_within_of_absorb hpoll ?_
  rw [← hstep]
  simp only [step, hnext, hpresent, hpoll]

/-- A run ends after at most one poll for each task and one for each step of the scripts at
which a routine may have to wait.  A task that is polled again after a wait is marked with the
visible name that ends it, and comes past the step of its script at which it waited, or makes
the run fail. -/
theorem run_within_polls (names : NameTable) (hfresh : AllUnstarted tasks) :
    runWithin (tasks.length + (tasks.flatMap (·.progress.remaining)).countP Step.mayWait)
        (start names tasks) = some (start names tasks).run ∧
      ∀ deeds schedule position task pause rest own, Runs (start names tasks) deeds schedule →
        schedule.next? = some position → schedule.tasks[position]? = some task →
          task.progress = .parked pause rest own →
            own.mark = some pause.name ∧
              Table.contains schedule.shared.published pause.name = true ∧
              (∃ done, tasks[position]? =
                some { task with progress := .unstarted (done ++ pause.step :: rest) }) ∧
              ((∃ failure shared, schedule.step = .failed failure shared) ∨
                ∃ progress shared, progress.Within rest ∧
                  schedule.step = .next (schedule.advance position task progress shared)) := by
  refine ⟨runWithin_eq_run (pollsLeft_start names hfresh).le, ?_⟩
  intro deeds schedule position task pause rest own hruns hnext hpresent hparked
  have hpause : task.pause? = some pause := by simp only [Task.pause?, hparked]
  obtain ⟨found, hfound, hallowed⟩ := canPoll_of_next? hnext
  obtain rfl := Option.some.inj (hpresent.symm.trans hfound)
  refine ⟨?_, ?_, ?_, ?_⟩
  · have hmarked := hruns.reaches.isMarked hfresh _ _ hpresent
    rwa [hpause, Option.map_some, Task.awaited?, hparked] at hmarked
  · simpa [CanPoll, Task.canResume, Task.canStart, hpause, hparked] using hallowed
  · exact (hruns.reaches.accounted hfresh).script_eq (hruns.reaches.allStop hfresh) hpresent
      hparked
  · cases hstep : schedule.step with
    | failed failure shared => exact .inl ⟨_, _, rfl⟩
    | settled =>
        exact absurd hallowed (step_eq_settled_iff.mp hstep _ (List.mem_of_getElem? hpresent))
    | next schedule' =>
        obtain ⟨progress, shared, rfl, hwithin⟩ := exists_within_of_step hnext hpresent hstep
        rw [hparked] at hwithin
        exact .inr ⟨progress, shared, hwithin, rfl⟩

/-- The inlet that suspends twice makes three polls, and the outlet one. -/
theorem inlet_within_polls :
    AllUnstarted (inletTasks [.act (.peek "outlet"), .suspend, .suspend]) ∧
      runWithin 4 (start .empty (inletTasks [.act (.peek "outlet"), .suspend, .suspend])) =
        some (start .empty (inletTasks [.act (.peek "outlet"), .suspend, .suspend])).run := by
  have hfresh : AllUnstarted (inletTasks [.act (.peek "outlet"), .suspend, .suspend]) := by
    simp [AllUnstarted, inletTasks, outlet]
  exact ⟨hfresh, (run_within_polls .empty hfresh).1⟩

/-- Three polls are not enough for the inlet and the outlet. -/
example :
    (runWithin 3 (start .empty
      (inletTasks [.act (.peek "outlet"), .suspend, .suspend]))).isNone = true := by
  decide +kernel

end Schedule

end Firmware
