import Firmware.Proofs.Routine.Passage
import Firmware.Proofs.Table
import Firmware.Schedule.Run
/-!
Runs of a schedule as sequences of polls.  A poll may choose any task that can go on
or start, and it is recorded as the deeds that it consists of.  The run of a
schedule is one such sequence, the one that always polls the next task; what holds
of every sequence of polls therefore holds of the run, and does not depend on the
order in which tasks are polled.
-/

namespace Firmware

/-- What is done for an instance: its routine is started or goes on, a step of it is
executed in some state of the routine, the routine ends, or a role is emitted. -/
inductive Act
  | started
  | resumed
  | step (own : Local) (step : Step)
  | ended
  | role (capability : Capability)

/-- The execution of a step in some state. -/
def Act.executed (passed : Local × Step) : Act := .step passed.1 passed.2

/-- An act with the instance that it is done for, and the position of that
instance. -/
structure Deed where
  task : Nat
  inst : Instance
  act : Act

namespace Shared

variable {shared : Shared} {id : Identifier} {name : String}

theorem contains_publish :
    Table.contains (shared.publish id).published name = true ↔
      Table.contains shared.published name = true ∨ id.name = name := by
  unfold publish
  split
  · next hold =>
      refine ⟨.inl, ?_⟩
      rintro (hseen | rfl)
      · exact hseen
      · exact hold
  · exact Table.contains_insert

/-- What becomes visible are the published variables. -/
theorem contains_foldl_publish {ids : List Identifier} :
    Table.contains (ids.foldl publish shared).published name = true ↔
      Table.contains shared.published name = true ∨ name ∈ ids.map (·.name) := by
  induction ids generalizing shared with
  | nil => simp
  | cons id rest ih =>
      rw [List.foldl_cons, ih, contains_publish, List.map_cons, List.mem_cons, or_assoc,
        eq_comm (a := name)]

/-- A variable that is visible stays so. -/
theorem get?_publish_of_some {found : Identifier}
    (h : Table.get? shared.published name = some found) :
    Table.get? (shared.publish id).published name = some found := by
  unfold publish
  split
  · exact h
  · next hnew =>
      have hne : id.name ≠ name := by
        rintro rfl
        simp [Table.contains, h] at hnew
      rw [Table.get?_insert, if_neg hne, h]

theorem get?_foldl_publish_of_some {ids : List Identifier} {found : Identifier}
    (h : Table.get? shared.published name = some found) :
    Table.get? (ids.foldl publish shared).published name = some found := by
  induction ids generalizing shared with
  | nil => exact h
  | cons id rest ih => exact ih (get?_publish_of_some h)

/-- A new variable becomes visible. -/
theorem get?_publish_self (h : Table.contains shared.published id.name = false) :
    Table.get? (shared.publish id).published id.name = some id := by
  rw [publish, h]
  exact Table.get?_insert_self ..

/-- What is visible afterwards was so before, or is among the published variables. -/
theorem get?_publish_cases {found : Identifier}
    (h : Table.get? (shared.publish id).published name = some found) :
    Table.get? shared.published name = some found ∨ found = id := by
  unfold publish at h
  split at h
  · exact .inl h
  · rw [Table.get?_insert] at h
    split at h
    · exact .inr (Option.some.inj h).symm
    · exact .inl h

theorem get?_foldl_publish_cases {ids : List Identifier} {found : Identifier}
    (h : Table.get? (ids.foldl publish shared).published name = some found) :
    Table.get? shared.published name = some found ∨ found ∈ ids := by
  induction ids generalizing shared with
  | nil => exact .inl h
  | cons id rest ih =>
      rcases ih h with hbefore | hlater
      · rcases get?_publish_cases hbefore with hold | rfl
        · exact .inl hold
        · exact .inr List.mem_cons_self
      · exact .inr (.tail _ hlater)

theorem foldl_publish_events (ids : List Identifier) (shared : Shared) :
    (ids.foldl publish shared).events = shared.events := by
  induction ids generalizing shared with
  | nil => rfl
  | cons id rest ih =>
      rw [List.foldl_cons, ih, publish]
      split <;> rfl

theorem foldl_publish_code (ids : List Identifier) (shared : Shared) :
    (ids.foldl publish shared).code = shared.code := by
  induction ids generalizing shared with
  | nil => rfl
  | cons id rest ih =>
      rw [List.foldl_cons, ih, publish]
      split <;> rfl

theorem IsNamed.publish (h : shared.IsNamed) (id : Identifier) : (shared.publish id).IsNamed := by
  unfold Shared.publish
  split
  · exact h
  · intro name found hfound
    rw [Table.get?_insert] at hfound
    split at hfound
    · next heq => exact Option.some.inj hfound ▸ heq
    · exact h name found hfound

theorem IsNamed.foldl_publish (h : shared.IsNamed) (ids : List Identifier) :
    (ids.foldl Shared.publish shared).IsNamed := by
  induction ids generalizing shared with
  | nil => exact h
  | cons id rest ih => exact ih (h.publish id)

end Shared

namespace Task

/-- How a poll of a task begins: by an act, and with the state and the steps that the
routine then has. -/
inductive Begins (task : Task) (position : Nat) (shared : Shared) :
    Act → Local → Shared → List Step → Prop
  | start {script : List Step} (fresh : task.progress = .unstarted script) :
      Begins task position shared .started (task.initialLocal position)
        ((task.initialLocal position).record .started shared) script
  | receive {name : String} {bind : Option String} {id : Identifier} {rest : List Step}
      {own : Local} (parked : task.progress = .parked (.awaiting name bind) rest own)
      (visible : Table.get? shared.published name = some id) :
      Begins task position shared .resumed (Step.receive bind id own shared).1
        (Step.receive bind id own shared).2 rest
  | resume {name : String} {id : Identifier} {rest : List Step} {own : Local}
      (parked : task.progress = .parked (.yielded name) rest own)
      (visible : Table.get? shared.published name = some id) :
      Begins task position shared .resumed own (own.record .resumed shared) rest

/-- No variable becomes visible where a poll begins. -/
theorem Begins.published {task : Task} {position : Nat} {shared shared' : Shared} {act : Act}
    {own : Local} {steps : List Step}
    (h : task.Begins position shared act own shared' steps) :
    shared'.published = shared.published := by
  cases h <;> rfl

/-- A poll goes on from where it begins. -/
theorem poll?_eq_some_iff {task : Task} {position : Nat} {shared : Shared} {poll : Poll} :
    task.poll? position shared = some poll ↔
      ∃ act own shared' steps, task.Begins position shared act own shared' steps ∧
        Step.run own shared' steps = poll := by
  constructor
  · intro h
    unfold poll? at h
    split at h
    · next script hfresh => exact ⟨_, _, _, _, .start hfresh, Option.some.inj h⟩
    · next pause rest own hparked =>
        obtain ⟨id, hvisible, hpoll⟩ := Option.map_eq_some_iff.mp h
        cases pause with
        | awaiting name bind => exact ⟨_, _, _, _, .receive hparked hvisible, hpoll⟩
        | yielded name => exact ⟨_, _, _, _, .resume hparked hvisible, hpoll⟩
    · simp at h
  · rintro ⟨act, own, shared', steps, hbegins, rfl⟩
    cases hbegins with
    | start hfresh => simp only [poll?, hfresh]
    | receive hparked hvisible =>
        simp only [poll?, hparked, Pause.name, hvisible, Option.map_some, Step.resume]
    | resume hparked hvisible =>
        simp only [poll?, hparked, Pause.name, hvisible, Option.map_some, Step.resume]

/-- The deeds of a poll that passes over some steps. -/
def deeds (task : Task) (position : Nat) (act : Act) (passed : List (Local × Step)) :
    List Deed :=
  (act :: passed.map .executed).map (Deed.mk position task.inst)

/-- The deeds with which the routine of a task ends. -/
def closing (task : Task) (position : Nat) : List Deed :=
  (.ended :: task.inst.declaration.capabilities.map .role).map (Deed.mk position task.inst)

end Task

namespace Schedule

def CanPoll (schedule : Schedule) (task : Task) : Prop :=
  task.canResume schedule.shared.published = true ∨ task.canStart schedule.hasEnded = true

/-- A poll of any task that can be polled: its routine ends, or it has to wait.  A
poll that fails leads nowhere. -/
inductive Polls (schedule : Schedule) : List Deed → Schedule → Prop
  | ends {position : Nat} {task : Task} {act : Act} {own own' : Local}
      {shared shared' final : Shared} {steps : List Step} {passed : List (Local × Step)}
      (present : schedule.tasks[position]? = some task) (allowed : schedule.CanPoll task)
      (begins : task.Begins position schedule.shared act own shared steps)
      (passes : Step.Passes own shared steps passed own' shared' [])
      (concluded : conclude task own' (own'.record .ended shared') = .ok final) :
      Polls schedule (task.deeds position act passed ++ task.closing position)
        (schedule.advance position task .ended final)
  | parks {position : Nat} {task : Task} {act : Act} {own own' own'' : Local}
      {shared shared' final : Shared} {steps rest : List Step} {step : Step} {pause : Pause}
      {passed : List (Local × Step)}
      (present : schedule.tasks[position]? = some task) (allowed : schedule.CanPoll task)
      (begins : task.Begins position schedule.shared act own shared steps)
      (passes : Step.Passes own shared steps passed own' shared' (step :: rest))
      (waits : Step.Waits own' shared' step pause own'' final) :
      Polls schedule (task.deeds position act (passed ++ [(own', step)]))
        (schedule.advance position task (.parked pause rest own'') final)

/-- The schedules that polls lead to, with the deeds on the way. -/
inductive Reaches (schedule : Schedule) : List Deed → Schedule → Prop
  | refl : Reaches schedule [] schedule
  | poll {deeds more : List Deed} {middle final : Schedule}
      (reached : Reaches schedule deeds middle) (polled : Polls middle more final) :
      Reaches schedule (deeds ++ more) final

/-- The schedules on the way of a run, which always polls the next task, with the
deeds up to them. -/
inductive Runs (schedule : Schedule) : List Deed → Schedule → Prop
  | refl : Runs schedule [] schedule
  | poll {deeds more : List Deed} {middle final : Schedule}
      (ran : Runs schedule deeds middle) (polled : Polls middle more final)
      (moved : middle.step = .next final) : Runs schedule (deeds ++ more) final

variable {schedule schedule' : Schedule}

/-- What follows the end of a routine: the roles of its instance are emitted, and its
variables become visible. -/
theorem conclude_eq_ok_iff {task : Task} {own : Local} {shared final : Shared} :
    conclude task own shared = .ok final ↔
      ∃ code, Capability.emitAll task.inst shared.code = .ok code ∧
        final = (own.declared ++ [task.inst.id]).foldl Shared.publish { shared with code } := by
  unfold conclude
  cases Capability.emitAll task.inst shared.code with
  | error fault => simp
  | ok code => simp [eq_comm]

/-- The recorded polls are exactly the successful ones. -/
theorem exists_polls_iff :
    (∃ deeds, Polls schedule deeds schedule') ↔
      ∃ position task poll, schedule.tasks[position]? = some task ∧ schedule.CanPoll task ∧
        task.poll? position schedule.shared = some poll ∧
        schedule.absorb position task poll = .next schedule' := by
  constructor
  · rintro ⟨deeds, hpolls⟩
    cases hpolls with
    | @ends position task _ _ _ _ _ _ _ _ hpresent hallowed hbegins hpasses hconcluded =>
        have hrun := Step.run_eq_ended_iff.mpr ⟨_, _, hpasses, rfl⟩
        refine ⟨position, task, _, hpresent, hallowed,
          Task.poll?_eq_some_iff.mpr ⟨_, _, _, _, hbegins, hrun⟩, ?_⟩
        simp only [absorb, hconcluded]
    | @parks position task _ _ _ _ _ _ _ _ _ _ _ _ hpresent hallowed hbegins hpasses hwaits =>
        have hrun := Step.run_eq_paused_iff.mpr ⟨_, _, _, _, hpasses, hwaits⟩
        exact ⟨position, task, _, hpresent, hallowed,
          Task.poll?_eq_some_iff.mpr ⟨_, _, _, _, hbegins, hrun⟩, rfl⟩
  · rintro ⟨position, task, poll, hpresent, hallowed, hpoll, habsorb⟩
    obtain ⟨act, own, shared, steps, hbegins, hrun⟩ := Task.poll?_eq_some_iff.mp hpoll
    cases poll with
    | failed failure shared => simp [absorb] at habsorb
    | ended own' shared' =>
        obtain ⟨passed, before, hpasses, rfl⟩ := Step.run_eq_ended_iff.mp hrun
        cases hconcluded : conclude task own' (own'.record .ended before) with
        | error failure => simp [absorb, hconcluded] at habsorb
        | ok final =>
            simp only [absorb, hconcluded, Move.next.injEq] at habsorb
            subst habsorb
            exact ⟨_, .ends hpresent hallowed hbegins hpasses hconcluded⟩
    | paused pause rest own' shared' =>
        obtain ⟨passed, last, before, step, hpasses, hwaits⟩ := Step.run_eq_paused_iff.mp hrun
        obtain rfl := Move.next.inj habsorb
        exact ⟨_, .parks hpresent hallowed hbegins hpasses hwaits⟩

theorem CanPoll.exists_poll {task : Task} (h : schedule.CanPoll task) (position : Nat) :
    ∃ poll, task.poll? position schedule.shared = some poll := by
  cases hprogress : task.progress with
  | unstarted script => exact ⟨_, by simp only [Task.poll?, hprogress]; rfl⟩
  | parked pause rest own =>
      have hcontains : Table.contains schedule.shared.published pause.name = true := by
        simpa [CanPoll, Task.canResume, Task.canStart, Task.pause?, hprogress] using h
      obtain ⟨id, hvisible⟩ := Option.isSome_iff_exists.mp hcontains
      exact ⟨_, by simp only [Task.poll?, hprogress, hvisible, Option.map_some]; rfl⟩
  | ended => simp [CanPoll, Task.canResume, Task.canStart, Task.pause?, hprogress] at h

theorem canPoll_of_next? {position : Nat} (h : schedule.next? = some position) :
    ∃ task, schedule.tasks[position]? = some task ∧ schedule.CanPoll task := by
  unfold next? at h
  split at h
  · next found hfound =>
      obtain rfl := Option.some.inj h
      obtain ⟨hbound, hresume, _⟩ := List.findIdx?_eq_some_iff_getElem.mp hfound
      exact ⟨_, List.getElem?_eq_getElem hbound, .inl hresume⟩
  · obtain ⟨hbound, hstart, _⟩ := List.findIdx?_eq_some_iff_getElem.mp h
    exact ⟨_, List.getElem?_eq_getElem hbound, .inr hstart⟩

theorem next?_eq_none_iff :
    schedule.next? = none ↔ ∀ task ∈ schedule.tasks, ¬ schedule.CanPoll task := by
  unfold next?
  split
  · next position hfound =>
      obtain ⟨hbound, hresume, _⟩ := List.findIdx?_eq_some_iff_getElem.mp hfound
      have hmem := List.getElem_mem hbound
      simp only [reduceCtorEq, false_iff]
      exact fun hnone => hnone _ hmem (.inl hresume)
  · next hnone =>
      rw [List.findIdx?_eq_none_iff] at hnone ⊢
      constructor
      · rintro hstart task hmem (hresume | hcan)
        · rw [hnone task hmem] at hresume
          exact Bool.false_ne_true hresume
        · rw [hstart task hmem] at hcan
          exact Bool.false_ne_true hcan
      · intro h task hmem
        exact Bool.eq_false_iff.mpr fun hcan => h task hmem (.inr hcan)

/-- A step polls the next task, or settles when there is none. -/
theorem step_cases (schedule : Schedule) :
    (schedule.step = .settled ∧ ∀ task ∈ schedule.tasks, ¬ schedule.CanPoll task) ∨
      ∃ position task poll, schedule.tasks[position]? = some task ∧
        schedule.CanPoll task ∧ task.poll? position schedule.shared = some poll ∧
        schedule.step = schedule.absorb position task poll := by
  cases hnext : schedule.next? with
  | none => exact .inl ⟨by simp only [step, hnext], next?_eq_none_iff.mp hnext⟩
  | some position =>
      obtain ⟨task, hpresent, hallowed⟩ := canPoll_of_next? hnext
      obtain ⟨poll, hpoll⟩ := hallowed.exists_poll position
      refine .inr ⟨position, task, poll, hpresent, hallowed, hpoll, ?_⟩
      simp only [step, hnext, hpresent, hpoll]

theorem step_eq_settled_iff :
    schedule.step = .settled ↔ ∀ task ∈ schedule.tasks, ¬ schedule.CanPoll task := by
  obtain ⟨hsettled, hnone⟩ | ⟨position, task, poll, hpresent, hallowed, _, hstep⟩ :=
    schedule.step_cases
  · exact iff_of_true hsettled hnone
  · refine iff_of_false ?_ fun hnone =>
      hnone task (List.mem_of_getElem? hpresent) hallowed
    rw [hstep]
    cases poll with
    | ended own shared =>
        simp only [absorb]
        split <;> simp
    | failed failure shared => exact nofun
    | paused pause rest own shared => exact nofun

theorem exists_polls_of_step (h : schedule.step = .next schedule') :
    ∃ deeds, Polls schedule deeds schedule' := by
  obtain ⟨hsettled, _⟩ | ⟨position, task, poll, hpresent, hallowed, hpoll, hstep⟩ :=
    schedule.step_cases
  · simp [hsettled] at h
  · exact exists_polls_iff.mpr ⟨position, task, poll, hpresent, hallowed, hpoll, hstep ▸ h⟩

theorem Runs.reaches {deeds : List Deed} (h : Runs schedule deeds schedule') :
    Reaches schedule deeds schedule' := by
  induction h with
  | refl => exact .refl
  | poll _ hpolled _ ih => exact ih.poll hpolled

/-- A run may be told from its first poll on. -/
theorem Runs.head {deeds more : List Deed} {final : Schedule}
    (hpolled : Polls schedule deeds schedule') (hmoved : schedule.step = .next schedule')
    (h : Runs schedule' more final) : Runs schedule (deeds ++ more) final := by
  induction h with
  | refl => simpa using Runs.refl.poll hpolled hmoved
  | poll _ hnext hstep ih => simpa using ih.poll hnext hstep

/-- The run of a schedule polls tasks until none can be polled, or a poll fails. -/
theorem exists_runs (schedule : Schedule) :
    ∃ deeds final, Runs schedule deeds final ∧
      ((final.step = .settled ∧ schedule.run = ⟨final.verdict, final.shared.trace⟩) ∨
        ∃ failure shared, final.step = .failed failure shared ∧
          schedule.run = ⟨.error failure, shared.trace⟩) := by
  fun_induction run schedule with
  | case1 schedule schedule' moved _ ih =>
      obtain ⟨deeds, final, hruns, hends⟩ := ih
      obtain ⟨first, hpolls⟩ := exists_polls_of_step moved
      exact ⟨first ++ deeds, final, .head hpolls moved hruns, hends⟩
  | case2 schedule failure shared moved =>
      exact ⟨[], schedule, .refl, .inr ⟨failure, shared, moved, rfl⟩⟩
  | case3 schedule moved => exact ⟨[], schedule, .refl, .inl ⟨moved, rfl⟩⟩

end Schedule

end Firmware
