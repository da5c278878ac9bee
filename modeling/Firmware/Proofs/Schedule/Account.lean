import Firmware.Proofs.Schedule.Reach
/-!
Accounts of a run.  The deeds that led to a schedule tell, for each of its tasks, how
far the task has come: an unstarted task has none, a parked one was started and has
executed its script up to where it waits, and one that has ended has executed all of
its script and then emitted its roles.  The accounts hold at the start of a run and
every poll keeps them.
-/

namespace Firmware

namespace Act

def step? : Act → Option Step
  | .step _ executed => some executed
  | _ => none

/-- Whether an act lies between the start of a routine and its end. -/
def isInner : Act → Bool
  | .step _ _ | .resumed => true
  | _ => false

theorem filterMap_step?_executed (passed : List (Local × Step)) :
    (passed.map executed).filterMap step? = passed.map Prod.snd := by
  rw [List.filterMap_map]
  exact congrFun List.filterMap_eq_map passed

theorem isInner_of_mem_executed {passed : List (Local × Step)} {act : Act}
    (h : act ∈ passed.map executed) : act.isInner = true := by
  obtain ⟨pair, _, rfl⟩ := List.mem_map.mp h
  rfl

end Act

/-- The acts of some deeds that are done for the instance at a position. -/
def Deed.actsAt (position : Nat) (deeds : List Deed) : List Act :=
  deeds.filterMap fun deed => if deed.task = position then some deed.act else none

@[simp] theorem Deed.actsAt_append (position : Nat) (deeds more : List Deed) :
    actsAt position (deeds ++ more) = actsAt position deeds ++ actsAt position more :=
  List.filterMap_append

@[simp] theorem Deed.actsAt_map_self (position : Nat) (inst : Instance) (acts : List Act) :
    actsAt position (acts.map (Deed.mk position inst)) = acts := by
  simp only [actsAt, List.filterMap_map, Function.comp_def, if_true, List.filterMap_some]

theorem Deed.actsAt_map_of_ne {position other : Nat} (hne : position ≠ other)
    (inst : Instance) (acts : List Act) :
    actsAt other (acts.map (Deed.mk position inst)) = [] := by
  simp only [actsAt, List.filterMap_map, Function.comp_def, hne, if_false]
  exact List.filterMap_eq_nil_iff.mpr fun _ _ => rfl

namespace Task

/-- What the acts done for a task say about how far it has come in its script. -/
inductive Accounts (task : Task) (script : List Step) : List Act → Prop
  | unstarted (progress : task.progress = .unstarted script) : Accounts task script []
  | parked {pause : Pause} {rest : List Step} {own : Local} {body : List Act}
      (progress : task.progress = .parked pause rest own)
      (inner : ∀ act ∈ body, act.isInner = true)
      (steps : body.filterMap Act.step? ++ rest = script) :
      Accounts task script (.started :: body)
  | ended {body : List Act} (progress : task.progress = .ended)
      (inner : ∀ act ∈ body, act.isInner = true)
      (steps : body.filterMap Act.step? = script) :
      Accounts task script
        (.started :: (body ++ .ended :: task.inst.declaration.capabilities.map .role))

variable {task : Task} {script steps : List Step} {acts : List Act} {act : Act}
  {position : Nat} {own own' : Local} {shared shared' : Shared}
  {passed : List (Local × Step)}

theorem Accounts.script_eq (h : task.Accounts script acts)
    (hfresh : task.progress = .unstarted steps) : script = steps := by
  cases h with
  | unstarted hprogress => exact Progress.unstarted.inj (hprogress.symm.trans hfresh)
  | parked hprogress => simp [hfresh] at hprogress
  | ended hprogress => simp [hfresh] at hprogress

/-- Nothing has been done for a task that has not been started. -/
theorem Accounts.acts_eq_nil (h : task.Accounts script acts)
    (hfresh : task.progress = .unstarted steps) : acts = [] := by
  cases h with
  | unstarted => rfl
  | parked hprogress => simp [hfresh] at hprogress
  | ended hprogress => simp [hfresh] at hprogress

/-- Before a task begins a poll there are the acts up to the place where it begins. -/
theorem Accounts.of_begins (h : task.Accounts script acts)
    (hbegins : task.Begins position shared act own shared' steps) :
    ∃ body, acts ++ [act] = .started :: body ∧ (∀ other ∈ body, other.isInner = true) ∧
      body.filterMap Act.step? ++ steps = script := by
  cases h with
  | unstarted hprogress =>
      cases hbegins with
      | start hfresh =>
          obtain rfl := Progress.unstarted.inj (hfresh.symm.trans hprogress)
          exact ⟨[], rfl, by simp, rfl⟩
      | receive hparked => simp [hprogress] at hparked
      | resume hparked => simp [hprogress] at hparked
  | @parked _ _ _ body hprogress hinner hsteps =>
      have hcase : act = .resumed ∧ body.filterMap Act.step? ++ steps = script := by
        cases hbegins with
        | start hfresh => simp [hprogress] at hfresh
        | receive hparked =>
            obtain ⟨-, rfl, -⟩ := Progress.parked.inj (hprogress.symm.trans hparked)
            exact ⟨rfl, hsteps⟩
        | resume hparked =>
            obtain ⟨-, rfl, -⟩ := Progress.parked.inj (hprogress.symm.trans hparked)
            exact ⟨rfl, hsteps⟩
      obtain ⟨rfl, hsteps'⟩ := hcase
      refine ⟨body ++ [.resumed], rfl, ?_, ?_⟩
      · intro other hother
        rcases List.mem_append.mp hother with hold | hnew
        · exact hinner other hold
        · rw [List.mem_singleton.mp hnew]
          rfl
      · rw [List.filterMap_append, show [Act.resumed].filterMap Act.step? = [] from rfl,
          List.append_nil, hsteps']
  | ended hprogress =>
      cases hbegins with
      | start hfresh => simp [hprogress] at hfresh
      | receive hparked => simp [hprogress] at hparked
      | resume hparked => simp [hprogress] at hparked

/-- A poll that passes over steps leaves the acts of a routine that has executed
them. -/
theorem Accounts.of_passes {rest : List Step} (h : task.Accounts script acts)
    (hbegins : task.Begins position shared act own shared' steps)
    (hpassed : passed.map Prod.snd ++ rest = steps) :
    ∃ body, acts ++ act :: passed.map .executed = .started :: body ∧
      (∀ other ∈ body, other.isInner = true) ∧
      body.filterMap Act.step? ++ rest = script := by
  obtain ⟨body, hacts, hinner, hsteps⟩ := h.of_begins hbegins
  refine ⟨body ++ passed.map .executed, ?_, ?_, ?_⟩
  · rw [← List.cons_append, ← hacts, List.append_assoc, List.singleton_append]
  · intro other hother
    rcases List.mem_append.mp hother with hold | hnew
    · exact hinner other hold
    · exact Act.isInner_of_mem_executed hnew
  · rw [List.filterMap_append, Act.filterMap_step?_executed, List.append_assoc, hpassed, hsteps]

end Task

namespace Schedule

variable {schedule schedule' : Schedule} {position other : Nat} {task found : Task}
  {progress : Progress} {shared : Shared} {tasks : List Task} {deeds : List Deed}

/-- The task that has moved on. -/
theorem getElem?_advance_self (hpresent : schedule.tasks[position]? = some found) :
    (schedule.advance position task progress shared).tasks[position]? =
      some { task with progress } := by
  obtain ⟨hbound, _⟩ := List.getElem?_eq_some_iff.mp hpresent
  simp [advance, hbound]

theorem getElem?_advance_of_ne (hne : position ≠ other) :
    (schedule.advance position task progress shared).tasks[other]? =
      schedule.tasks[other]? := by
  simp [advance, hne]

theorem getElem?_advance_cases
    (h : (schedule.advance position task progress shared).tasks[other]? = some found) :
    (other = position ∧ found = { task with progress }) ∨
      (position ≠ other ∧ schedule.tasks[other]? = some found) := by
  by_cases hne : position = other
  · subst hne
    have hbound : position < schedule.tasks.length := by
      have := (List.getElem?_eq_some_iff.mp h).1
      simpa [advance] using this
    rw [getElem?_advance_self (List.getElem?_eq_getElem hbound)] at h
    exact .inl ⟨rfl, (Option.some.inj h).symm⟩
  · rw [getElem?_advance_of_ne hne] at h
    exact .inr ⟨hne, h⟩

theorem hasEnded_eq_true_iff :
    schedule.hasEnded position = true ↔
      ∃ task, schedule.tasks[position]? = some task ∧ task.progress = .ended := by
  unfold hasEnded
  cases hpresent : schedule.tasks[position]? with
  | none => simp
  | some task =>
      simp only [Option.any_some, Option.some.injEq, exists_eq_left', Task.hasEnded]
      cases task.progress <;> simp

theorem CanPoll.progress_ne (h : schedule.CanPoll task) : task.progress ≠ .ended := by
  intro hended
  simp [CanPoll, Task.canResume, Task.pause?, Task.canStart, hended] at h

theorem CanPoll.hasEnded_ne (h : schedule.CanPoll task)
    (hpresent : schedule.tasks[position]? = some task) : schedule.hasEnded position ≠ true := by
  intro hended
  obtain ⟨last, hlast, hprogress⟩ := hasEnded_eq_true_iff.mp hended
  obtain rfl := Option.some.inj (hpresent.symm.trans hlast)
  exact h.progress_ne hprogress

/-- After a task has moved on, it has ended if that was its end, and the others as
before. -/
theorem hasEnded_advance_iff (hpresent : schedule.tasks[position]? = some task)
    (hallowed : schedule.CanPoll task) :
    (schedule.advance position task progress shared).hasEnded other = true ↔
      position = other ∧ progress = .ended ∨ schedule.hasEnded other = true := by
  by_cases hne : position = other
  · subst hne
    rw [hasEnded_eq_true_iff, getElem?_advance_self hpresent]
    simp [hallowed.hasEnded_ne hpresent]
  · rw [hasEnded_eq_true_iff, getElem?_advance_of_ne hne, ← hasEnded_eq_true_iff]
    simp [hne]

theorem hasEnded_advance (hpresent : schedule.tasks[position]? = some task)
    (hallowed : schedule.CanPoll task) (hended : schedule.hasEnded other = true) :
    (schedule.advance position task progress shared).hasEnded other = true :=
  (hasEnded_advance_iff hpresent hallowed).mpr (.inr hended)

/-- The accounts of a run: what the deeds so far say about the tasks that it started
with, and what holds of those it has started. -/
structure Accounted (tasks : List Task) (deeds : List Deed) (schedule : Schedule) : Prop where
  length : schedule.tasks.length = tasks.length
  accounts : ∀ {position : Nat} {task : Task}, schedule.tasks[position]? = some task →
    ∃ script, tasks[position]? = some { task with progress := .unstarted script } ∧
      task.Accounts script (Deed.actsAt position deeds)
  follows : ∀ {position : Nat} {task : Task} {pause : Pause} {rest : List Step} {own : Local},
    schedule.tasks[position]? = some task → task.progress = .parked pause rest own →
      own.Follows (task.initialLocal position)
  /-- A routine is started only when all that it depends on has ended. -/
  dependencies : ∀ {position : Nat} {task : Task}, schedule.tasks[position]? = some task →
    (∀ script, task.progress ≠ .unstarted script) →
      ∀ dependency ∈ task.dependencies, schedule.hasEnded dependency = true
  inst : ∀ deed ∈ deeds, ∃ task, schedule.tasks[deed.task]? = some task ∧ task.inst = deed.inst

def AllUnstarted (tasks : List Task) : Prop :=
  ∀ task ∈ tasks, ∃ script, task.progress = .unstarted script

theorem hasEnded_start_ne (names : NameTable) (hfresh : AllUnstarted tasks) (position : Nat) :
    (start names tasks).hasEnded position ≠ true := by
  intro hended
  obtain ⟨task, hpresent, hprogress⟩ := hasEnded_eq_true_iff.mp hended
  obtain ⟨script, hunstarted⟩ := hfresh task (List.mem_of_getElem? hpresent)
  simp [hprogress] at hunstarted

theorem accounted_start (names : NameTable) (hfresh : AllUnstarted tasks) :
    Accounted tasks [] (start names tasks) where
  length := rfl
  accounts hpresent := by
    obtain ⟨script, hprogress⟩ := hfresh _ (List.mem_of_getElem? hpresent)
    exact ⟨script, by rw [← hprogress]; exact hpresent, .unstarted hprogress⟩
  follows hpresent hparked := by
    obtain ⟨script, hprogress⟩ := hfresh _ (List.mem_of_getElem? hpresent)
    rw [hprogress] at hparked
    simp at hparked
  dependencies hpresent hstarted := by
    obtain ⟨script, hprogress⟩ := hfresh _ (List.mem_of_getElem? hpresent)
    exact absurd hprogress (hstarted script)
  inst := by simp

/-- All that a task depends on has ended when it is polled. -/
theorem Accounted.hasEnded_dependencies (h : Accounted tasks deeds schedule)
    (hpresent : schedule.tasks[position]? = some task) (hallowed : schedule.CanPoll task) :
    ∀ dependency ∈ task.dependencies, schedule.hasEnded dependency = true := by
  cases hprogress : task.progress with
  | unstarted script =>
      have hall : task.dependencies.all schedule.hasEnded = true := by
        simpa [CanPoll, Task.canResume, Task.canStart, Task.pause?, hprogress] using hallowed
      exact List.all_eq_true.mp hall
  | parked => exact h.dependencies hpresent (by simp [hprogress])
  | ended => exact absurd hprogress hallowed.progress_ne

theorem Accounted.advance {script : List Step} {more : List Act}
    (h : Accounted tasks deeds schedule)
    (hpresent : schedule.tasks[position]? = some task) (hallowed : schedule.CanPoll task)
    (horigin : tasks[position]? = some { task with progress := .unstarted script })
    (haccounts : Task.Accounts { task with progress } script
      (Deed.actsAt position deeds ++ more))
    (hfollows : ∀ pause rest last, progress = .parked pause rest last →
      last.Follows (task.initialLocal position)) :
    Accounted tasks (deeds ++ more.map (Deed.mk position task.inst))
      (schedule.advance position task progress shared) where
  length := by simpa [Schedule.advance] using h.length
  accounts hfound := by
    rcases getElem?_advance_cases hfound with ⟨rfl, rfl⟩ | ⟨hne, hfound⟩
    · exact ⟨script, horigin, by simpa using haccounts⟩
    · obtain ⟨script', horigin', haccounts'⟩ := h.accounts hfound
      refine ⟨script', horigin', ?_⟩
      rwa [Deed.actsAt_append, Deed.actsAt_map_of_ne hne, List.append_nil]
  follows hfound hparked := by
    rcases getElem?_advance_cases hfound with ⟨rfl, rfl⟩ | ⟨_, hfound⟩
    · exact hfollows _ _ _ hparked
    · exact h.follows hfound hparked
  dependencies hfound hstarted dependency hmem := by
    apply hasEnded_advance hpresent hallowed
    rcases getElem?_advance_cases hfound with ⟨rfl, rfl⟩ | ⟨_, hfound⟩
    · exact h.hasEnded_dependencies hpresent hallowed dependency hmem
    · exact h.dependencies hfound hstarted dependency hmem
  inst := by
    have hkept : ∀ {at' : Nat} {old : Task}, schedule.tasks[at']? = some old →
        ∃ new, (schedule.advance position task progress shared).tasks[at']? = some new ∧
          new.inst = old.inst := by
      intro at' old hold
      by_cases hne : position = at'
      · subst hne
        obtain rfl := Option.some.inj (hpresent.symm.trans hold)
        exact ⟨_, getElem?_advance_self hpresent, rfl⟩
      · exact ⟨old, (getElem?_advance_of_ne hne).trans hold, rfl⟩
    intro deed hdeed
    rcases List.mem_append.mp hdeed with hold | hnew
    · obtain ⟨old, hold, hinst⟩ := h.inst deed hold
      obtain ⟨new, hnew, hsame⟩ := hkept hold
      exact ⟨new, hnew, hsame.trans hinst⟩
    · obtain ⟨_, _, rfl⟩ := List.mem_map.mp hnew
      exact hkept hpresent

/-- Where a poll begins, the routine is that of the task. -/
theorem Accounted.follows_of_begins {act : Act} {own : Local} {before : Shared}
    {steps : List Step} (h : Accounted tasks deeds schedule)
    (hpresent : schedule.tasks[position]? = some task)
    (hbegins : task.Begins position schedule.shared act own before steps) :
    own.Follows (task.initialLocal position) := by
  cases hbegins with
  | start => exact .refl _
  | receive hparked => exact (Step.receive_follows ..).trans (h.follows hpresent hparked)
  | resume hparked => exact h.follows hpresent hparked

theorem Accounted.polls {more : List Deed} (h : Accounted tasks deeds schedule)
    (hpolls : Polls schedule more schedule') : Accounted tasks (deeds ++ more) schedule' := by
  cases hpolls with
  | ends hpresent hallowed hbegins hpasses hconcluded =>
      obtain ⟨script, horigin, haccounts⟩ := h.accounts hpresent
      obtain ⟨body, hacts, hinner, hsteps⟩ :=
        haccounts.of_passes hbegins hpasses.map_append
      rw [Task.deeds, Task.closing, ← List.map_append]
      refine h.advance hpresent hallowed horigin ?_ (by simp)
      rw [← List.append_assoc, hacts]
      exact .ended rfl hinner (by simpa using hsteps)
  | @parks _ _ _ _ own' _ _ _ _ steps rest step _ passed hpresent hallowed hbegins hpasses
      hwaits =>
      have hexecuted : (passed ++ [(own', step)]).map Prod.snd ++ rest = steps := by
        simpa using hpasses.map_append
      obtain ⟨script, horigin, haccounts⟩ := h.accounts hpresent
      obtain ⟨body, hacts, hinner, hsteps⟩ := haccounts.of_passes hbegins hexecuted
      refine h.advance hpresent hallowed horigin ?_ ?_
      · rw [hacts]
        exact .parked rfl hinner hsteps
      · rintro _ _ _ hparked
        obtain ⟨-, -, rfl⟩ := Progress.parked.inj hparked
        exact (hwaits.follows.trans hpasses.follows).trans
          (h.follows_of_begins hpresent hbegins)

/-- The accounts hold of every schedule that a run can reach. -/
theorem Reaches.accounted {names : NameTable} (h : Reaches (start names tasks) deeds schedule)
    (hfresh : AllUnstarted tasks) : Accounted tasks deeds schedule := by
  induction h with
  | refl => exact accounted_start names hfresh
  | poll _ hpolls ih => exact ih.polls hpolls

/-- The variables of the instances are all different. -/
def DistinctNames (tasks : List Task) : Prop := (tasks.map (·.inst.id.name)).Nodup

theorem DistinctNames.eq {left right : Nat} {a b : Task} (h : DistinctNames tasks)
    (hleft : tasks[left]? = some a) (hright : tasks[right]? = some b)
    (hname : a.inst.id.name = b.inst.id.name) : left = right := by
  have hbound : left < (tasks.map (·.inst.id.name)).length := by
    simpa using (List.getElem?_eq_some_iff.mp hleft).1
  apply (List.getElem?_inj hbound h).mp
  simp only [List.getElem?_map, hleft, hright, Option.map_some, hname]

/-- Polls change no instance. -/
theorem Accounted.distinctNames (h : Accounted tasks deeds schedule)
    (hdistinct : DistinctNames tasks) : DistinctNames schedule.tasks := by
  have hsame : schedule.tasks.map (·.inst.id.name) = tasks.map (·.inst.id.name) := by
    apply List.ext_getElem?
    intro position
    cases hpresent : schedule.tasks[position]? with
    | none =>
        have hbound := List.getElem?_eq_none_iff.mp hpresent
        rw [h.length] at hbound
        simp [hpresent, hbound]
    | some task =>
        obtain ⟨_, horigin, _⟩ := h.accounts hpresent
        simp [hpresent, horigin]
  rw [DistinctNames, hsame]
  exact hdistinct

end Schedule

end Firmware
