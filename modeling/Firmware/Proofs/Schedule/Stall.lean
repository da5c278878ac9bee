import Firmware.Proofs.Code.Pieces
import Firmware.Proofs.Routine.Plain
import Firmware.Proofs.Schedule.Completion
import Mathlib.Order.Bounds.Basic
/-!
Stalls of plain scripts.  A task can be completed when those it depends on can be, and
when tasks that can be completed declare the variables that it awaits.  No poll
completes any other task, in whatever order tasks are polled, and the run completes
all of these, so it stalls only if every order does.
-/

namespace Firmware

namespace Schedule

variable {names : NameTable} {tasks : List Task} {deeds more : List Deed} {ordered : Ordered}
  {schedule schedule' : Schedule} {task : Task} {position : Nat} {script : List Step}
  {name : String} {C : Set Nat}

/-- Whether the task at a position makes a variable visible when it ends: its own, or
one that its script declares. -/
def Provides (tasks : List Task) (position : Nat) (name : String) : Prop :=
  ∃ task script, tasks[position]? = some task ∧ task.progress = .unstarted script ∧
    (name = task.inst.id.name ∨ name ∈ Step.declared task.inst.id.name [] script)

/-- Sets of tasks to which every task belongs whose dependencies belong to it, and for
each of whose awaited variables a task that provides it does. -/
def ClosedUnder (tasks : List Task) (C : Set Nat) : Prop :=
  ∀ position task script, tasks[position]? = some task → task.progress = .unstarted script →
    (∀ dependency ∈ task.dependencies, dependency ∈ C) →
    (∀ name ∈ Step.awaited script, ∃ other ∈ C, Provides tasks other name) → position ∈ C

def ArePlain (tasks : List Task) : Prop :=
  ∀ task ∈ tasks, ∀ script, task.progress = .unstarted script →
    Step.arePlain task.inst [] script = true

/-- What holds of every schedule of plain tasks: parked routines are plain and await a
variable, what ended routines await and provide is visible, and nothing else is. -/
structure Steady (tasks : List Task) (schedule : Schedule) : Prop where
  named : schedule.shared.IsNamed
  parked : ∀ {position : Nat} {task : Task} {pause : Pause} {rest : List Step} {own : Local},
    schedule.tasks[position]? = some task → task.progress = .parked pause rest own →
      ∃ script name bind, tasks[position]? = some { task with progress := .unstarted script } ∧
        pause = .awaiting name bind ∧
        Step.Reached task.inst script schedule.shared.published own (.await name bind :: rest)
  awaited : ∀ {position : Nat} {task : Task} {script : List Step},
    schedule.hasEnded position = true → tasks[position]? = some task →
      task.progress = .unstarted script →
        ∀ name ∈ Step.awaited script, Table.contains schedule.shared.published name = true
  provided : ∀ {position : Nat} {name : String}, schedule.hasEnded position = true →
    Provides tasks position name → Table.contains schedule.shared.published name = true
  published : ∀ {name : String}, Table.contains schedule.shared.published name = true →
    ∃ position, schedule.hasEnded position = true ∧ Provides tasks position name
  objects : ∀ name ∈ schedule.shared.code.runtimeObjects, ∃ position task,
    schedule.hasEnded position = true ∧ schedule.tasks[position]? = some task ∧
      task.inst.id.name = name

theorem steady_start (names : NameTable) (hfresh : AllUnstarted tasks) :
    Steady tasks (start names tasks) := by
  have hnone := hasEnded_start_ne names hfresh
  refine ⟨by simp [Shared.IsNamed, start], ?_, fun hended => absurd hended (hnone _),
    fun hended => absurd hended (hnone _), by simp [start, Table.contains],
    by simp [start, Code.empty]⟩
  intro position task pause rest own hpresent hparked
  obtain ⟨script, hunstarted⟩ := hfresh task (List.mem_of_getElem? hpresent)
  simp [hparked] at hunstarted

/-- Where a poll begins, the routine is plain, and nothing was added. -/
theorem Steady.reached_of_begins {act : Act} {own : Local} {before : Shared} {steps : List Step}
    (h : Steady tasks schedule) (hplain : ArePlain tasks)
    (haccounted : Accounted tasks deeds schedule)
    (hpresent : schedule.tasks[position]? = some task)
    (hbegins : task.Begins position schedule.shared act own before steps) :
    before.published = schedule.shared.published ∧ before.code = schedule.shared.code ∧
      ∃ script, tasks[position]? = some { task with progress := .unstarted script } ∧
        Step.Reached task.inst script before.published own steps := by
  cases hbegins with
  | start hfresh =>
      obtain ⟨script, horigin, haccounts⟩ := haccounted.accounts hpresent
      obtain rfl := haccounts.script_eq hfresh
      have hscript := hplain _ (List.mem_of_getElem? horigin) _ rfl
      exact ⟨rfl, rfl, script, horigin, rfl, rfl, List.suffix_rfl,
        ⟨[], by simp [Local.Within], hscript, rfl⟩, fun name hname => .inr hname⟩
  | receive hparked hvisible =>
      obtain ⟨script, name, bind, horigin, hpause, hreached⟩ := h.parked hpresent hparked
      obtain ⟨rfl, rfl⟩ := Pause.awaiting.inj hpause
      exact ⟨rfl, rfl, script, horigin, hreached.receive hvisible (h.named _ _ hvisible) _⟩
  | resume hparked _ =>
      obtain ⟨_, _, _, _, hpause, _⟩ := h.parked hpresent hparked
      simp at hpause

/-- Where a passage of a poll ends, the routine is still plain, nothing has been shown,
and nothing has been registered. -/
theorem Steady.reached_of_passes {act : Act} {own own' : Local} {before after : Shared}
    {steps rest : List Step} {passed : List (Local × Step)} (h : Steady tasks schedule)
    (hplain : ArePlain tasks) (haccounted : Accounted tasks deeds schedule)
    (hpresent : schedule.tasks[position]? = some task)
    (hbegins : task.Begins position schedule.shared act own before steps)
    (hpasses : Step.Passes own before steps passed own' after rest) :
    after.published = schedule.shared.published ∧
      after.code.runtimeObjects = schedule.shared.code.runtimeObjects ∧
      ∃ script, tasks[position]? = some { task with progress := .unstarted script } ∧
        Step.Reached task.inst script schedule.shared.published own' rest := by
  obtain ⟨hpublished, hcode, script, horigin, hreached⟩ :=
    h.reached_of_begins hplain haccounted hpresent hbegins
  obtain ⟨hend, hobjects⟩ := hreached.passes (h.named.congr hpublished) hpasses
  rw [hpublished] at hend
  exact ⟨hpasses.published.trans hpublished,
    hobjects.trans (congrArg Code.runtimeObjects hcode), script, horigin, hend⟩

/-- What a script declares is what a plain routine has declared in the end. -/
theorem declared_of_reached {inst : Instance} {published : Table String Identifier} {own : Local}
    (h : Step.Reached inst script published own []) :
    (own.declared ++ [inst.id]).map (·.name) =
      Step.declared inst.id.name [] script ++ [inst.id.name] := by
  obtain ⟨_, _, _, hdeclared⟩ := h.scope
  rw [Step.declared, List.append_nil] at hdeclared
  rw [List.map_append, hdeclared]
  rfl

/-- After a plain routine has ended, its own variable and those that its script
declares are visible besides the others. -/
theorem contains_of_conclude {own : Local} {shared final : Shared}
    (horigin : tasks[position]? = some { task with progress := .unstarted script })
    (hreached : Step.Reached task.inst script shared.published own [])
    (hconcluded : conclude task own (own.record .ended shared) = .ok final) :
    Table.contains final.published name = true ↔
      Table.contains shared.published name = true ∨ Provides tasks position name := by
  obtain ⟨code, _, rfl⟩ := conclude_eq_ok_iff.mp hconcluded
  rw [Shared.contains_foldl_publish, declared_of_reached hreached]
  apply or_congr_right
  rw [List.mem_append, List.mem_singleton]
  constructor
  · exact fun hname => ⟨_, script, horigin, rfl, hname.symm⟩
  · rintro ⟨found, other, hfound, hother, hname⟩
    obtain rfl := Option.some.inj (horigin.symm.trans hfound)
    obtain rfl := Progress.unstarted.inj hother
    exact hname.symm

/-- No two tasks have the same variable, and no role is held twice. -/
structure Emittable (tasks : List Task) : Prop where
  distinct : DistinctNames tasks
  roles : ∀ task ∈ tasks, task.inst.declaration.capabilities.Nodup

/-- When a plain routine has ended, its roles can be emitted. -/
theorem Steady.exists_conclude (own : Local) (shared : Shared) (h : Steady tasks schedule)
    (hemittable : Emittable tasks) (haccounted : Accounted tasks deeds schedule)
    (hpresent : schedule.tasks[position]? = some task) (hallowed : schedule.CanPoll task)
    (hobjects : shared.code.runtimeObjects = schedule.shared.code.runtimeObjects) :
    ∃ final, conclude task own shared = .ok final ∧
      ∀ name ∈ final.code.runtimeObjects,
        name ∈ schedule.shared.code.runtimeObjects ∨ name = task.inst.id.name := by
  obtain ⟨_, horigin, _⟩ := haccounted.accounts hpresent
  have hfresh : task.inst.id.name ∉ shared.code.runtimeObjects := by
    rw [hobjects]
    intro hregistered
    obtain ⟨other, found, hended, hfound, hname⟩ := h.objects _ hregistered
    obtain rfl := (haccounted.distinctNames hemittable.distinct).eq hfound hpresent hname
    exact hallowed.hasEnded_ne hpresent hended
  have hroles := hemittable.roles _ (List.mem_of_getElem? horigin)
  obtain ⟨code, hcode, hcases⟩ := Capability.exists_emitAll hroles hfresh
  refine ⟨_, conclude_eq_ok_iff.mpr ⟨code, hcode, rfl⟩, ?_⟩
  rw [Shared.foldl_publish_code, ← hobjects]
  exact hcases

/-- A task that moves on keeps a schedule steady, if it shows nothing before it ends
and then what it provides. -/
theorem Steady.advance {progress : Progress} {final : Shared} (h : Steady tasks schedule)
    (hpresent : schedule.tasks[position]? = some task) (hallowed : schedule.CanPoll task)
    (hnamed : final.IsNamed)
    (hpublished : ∀ name, Table.contains final.published name = true ↔
      Table.contains schedule.shared.published name = true ∨
        progress = .ended ∧ Provides tasks position name)
    (hobjects : ∀ name ∈ final.code.runtimeObjects,
      name ∈ schedule.shared.code.runtimeObjects ∨
        progress = .ended ∧ name = task.inst.id.name)
    (hparked : ∀ pause rest own, progress = .parked pause rest own →
      ∃ script name bind, tasks[position]? = some { task with progress := .unstarted script } ∧
        pause = .awaiting name bind ∧
        Step.Reached task.inst script final.published own (.await name bind :: rest))
    (hawaited : progress = .ended → ∀ task script, tasks[position]? = some task →
      task.progress = .unstarted script →
        ∀ name ∈ Step.awaited script, Table.contains final.published name = true) :
    Steady tasks (schedule.advance position task progress final) := by
  have hgrows : ∀ name, Table.contains schedule.shared.published name = true →
      Table.contains final.published name = true :=
    fun name hseen => (hpublished name).mpr (.inl hseen)
  refine ⟨hnamed, ?_, ?_, ?_, ?_, ?_⟩
  · intro other found pause rest own hfound hprogress
    rcases getElem?_advance_cases hfound with ⟨rfl, rfl⟩ | ⟨_, hfound⟩
    · exact hparked pause rest own hprogress
    · obtain ⟨script, name, bind, horigin, hpause, hreached⟩ := h.parked hfound hprogress
      exact ⟨script, name, bind, horigin, hpause, hreached.mono hgrows⟩
  · intro other found script hended horigin hscript name hname
    rcases (hasEnded_advance_iff hpresent hallowed).mp hended with ⟨rfl, hprogress⟩ | hended
    · exact hawaited hprogress found script horigin hscript name hname
    · exact hgrows name (h.awaited hended horigin hscript name hname)
  · intro other name hended hprovides
    rcases (hasEnded_advance_iff hpresent hallowed).mp hended with ⟨rfl, hprogress⟩ | hended
    · exact (hpublished name).mpr (.inr ⟨hprogress, hprovides⟩)
    · exact hgrows name (h.provided hended hprovides)
  · intro name hseen
    rcases (hpublished name).mp hseen with hold | ⟨hprogress, hprovides⟩
    · obtain ⟨other, hended, hprovides⟩ := h.published hold
      exact ⟨other, hasEnded_advance hpresent hallowed hended, hprovides⟩
    · exact ⟨position, (hasEnded_advance_iff hpresent hallowed).mpr (.inl ⟨rfl, hprogress⟩),
        hprovides⟩
  · intro name hname
    rcases hobjects name hname with hold | ⟨hprogress, rfl⟩
    · obtain ⟨other, found, hended, hfound, hsame⟩ := h.objects name hold
      have hne : position ≠ other := by
        rintro rfl
        exact hallowed.hasEnded_ne hpresent hended
      exact ⟨other, found, hasEnded_advance hpresent hallowed hended,
        (getElem?_advance_of_ne hne).trans hfound, hsame⟩
    · exact ⟨position, _, (hasEnded_advance_iff hpresent hallowed).mpr (.inl ⟨rfl, hprogress⟩),
        getElem?_advance_self hpresent, rfl⟩

theorem Steady.polls (h : Steady tasks schedule) (hplain : ArePlain tasks)
    (hemittable : Emittable tasks) (haccounted : Accounted tasks deeds schedule)
    (hpolls : Polls schedule more schedule') : Steady tasks schedule' := by
  cases hpolls with
  | @ends position task act own own' before after final steps passed hpresent hallowed hbegins
      hpasses hconcluded =>
      obtain ⟨hshown, hobjects, script, horigin, hend⟩ :=
        h.reached_of_passes hplain haccounted hpresent hbegins hpasses
      obtain ⟨_, hok, hcases⟩ := h.exists_conclude own'
        (own'.record .ended after) hemittable haccounted hpresent hallowed hobjects
      obtain rfl := Except.ok.inj (hconcluded.symm.trans hok)
      rw [← hshown] at hend
      have hcontains : ∀ name, Table.contains final.published name = true ↔
          Table.contains schedule.shared.published name = true ∨ Provides tasks position name := by
        intro name
        rw [contains_of_conclude horigin hend hconcluded, hshown]
      refine h.advance hpresent hallowed ?_ (by simpa using hcontains) (by simpa using hcases)
        (by simp) ?_
      · obtain ⟨code, _, rfl⟩ := conclude_eq_ok_iff.mp hconcluded
        apply Shared.IsNamed.foldl_publish
        exact h.named.congr hshown
      · intro _ found script' hfound hscript name hname
        obtain rfl := Option.some.inj (horigin.symm.trans hfound)
        obtain rfl := Progress.unstarted.inj hscript
        refine (hcontains name).mpr (.inl ?_)
        rw [← hshown]
        exact (hend.awaited name hname).resolve_right (by simp [Step.awaited])
  | @parks position task act own own' last before after final steps rest step pause passed
      hpresent hallowed hbegins hpasses hwaits =>
      obtain ⟨hpublished, hobjects, script, horigin, hend⟩ :=
        h.reached_of_passes hplain haccounted hpresent hbegins hpasses
      have hshown := hwaits.published.trans hpublished
      have hkept : final.code.runtimeObjects = schedule.shared.code.runtimeObjects := by
        rw [← hobjects]
        cases hwaits <;> rfl
      rw [← hshown] at hend
      refine h.advance hpresent hallowed (h.named.congr hshown) (by simp [hshown])
        (fun name hname => .inl (hkept ▸ hname)) ?_ (by simp)
      intro _ _ _ hprogress
      obtain ⟨rfl, rfl, rfl⟩ := Progress.parked.inj hprogress
      cases hwaits with
      | @await name bind _ =>
          exact ⟨script, name, bind, horigin, rfl, hend.id, hend.config, hend.suffix, hend.scope,
            hend.awaited⟩
      | suspend =>
          obtain ⟨_, _, hsteps, _⟩ := hend.scope
          simp [Step.arePlain] at hsteps

theorem Reaches.steady (h : Reaches (start names tasks) deeds schedule)
    (hfresh : AllUnstarted tasks) (hplain : ArePlain tasks) (hemittable : Emittable tasks) :
    Steady tasks schedule := by
  induction h with
  | refl => exact steady_start names hfresh
  | poll hreaches hpolls ih => exact ih.polls hplain hemittable (hreaches.accounted hfresh) hpolls

/-- No poll of plain tasks fails. -/
theorem Steady.step_ne_failed (h : Steady tasks schedule) (hplain : ArePlain tasks)
    (hemittable : Emittable tasks) (haccounted : Accounted tasks deeds schedule)
    (failure : Failure) (final : Shared) : schedule.step ≠ .failed failure final := by
  intro hfailed
  obtain ⟨hsettled, _⟩ | ⟨position, task, poll, hpresent, hallowed, hpoll, hstep⟩ :=
    schedule.step_cases
  · simp [hsettled] at hfailed
  · obtain ⟨act, own, before, steps, hbegins, rfl⟩ := Task.poll?_eq_some_iff.mp hpoll
    obtain ⟨hpublished, hcode, script, _, hreached⟩ :=
      h.reached_of_begins hplain haccounted hpresent hbegins
    have hnamed := h.named.congr hpublished
    rw [hstep] at hfailed
    cases hrun : Step.run own before steps with
    | paused => simp [hrun, absorb] at hfailed
    | failed => exact hreached.run_ne_failed hnamed _ _ hrun
    | ended own' shared =>
        obtain ⟨passed, after, hpasses, rfl⟩ := Step.run_eq_ended_iff.mp hrun
        obtain ⟨_, hobjects⟩ := hreached.passes hnamed hpasses
        have hsame := hobjects.trans (congrArg Code.runtimeObjects hcode)
        obtain ⟨_, hok, _⟩ := h.exists_conclude own' (own'.record .ended after)
          hemittable haccounted hpresent hallowed hsame
        simp [hrun, absorb, hok] at hfailed

/-- Whatever the order of polls, a task that ends belongs to every closed set. -/
theorem Reaches.mem_of_hasEnded (h : Reaches (start names tasks) deeds schedule)
    (hfresh : AllUnstarted tasks) (hplain : ArePlain tasks) (hemittable : Emittable tasks)
    (hclosed : ClosedUnder tasks C) : ∀ position, schedule.hasEnded position = true →
      position ∈ C := by
  induction h with
  | refl =>
      intro position hended
      exact absurd hended (hasEnded_start_ne names hfresh position)
  | @poll deeds more middle final hreaches hpolls ih =>
      have haccounted := hreaches.accounted hfresh
      have hsteady := hreaches.steady hfresh hplain hemittable
      intro other hended
      cases hpolls with
      | parks hpresent hallowed =>
          rcases (hasEnded_advance_iff hpresent hallowed).mp hended with ⟨_, hprogress⟩ | hold
          · simp at hprogress
          · exact ih other hold
      | ends hpresent hallowed hbegins hpasses _ =>
          rcases (hasEnded_advance_iff hpresent hallowed).mp hended with ⟨rfl, _⟩ | hold
          · obtain ⟨_, _, script, horigin, hend⟩ :=
              hsteady.reached_of_passes hplain haccounted hpresent hbegins hpasses
            refine hclosed _ _ script horigin rfl ?_ ?_
            · intro dependency hmem
              exact ih _ (haccounted.hasEnded_dependencies hpresent hallowed dependency hmem)
            · intro name hname
              have hseen := (hend.awaited name hname).resolve_right (by simp [Step.awaited])
              obtain ⟨provider, hprovider, hprovides⟩ := hsteady.published hseen
              exact ⟨provider, ih provider hprovider, hprovides⟩
          · exact ih other hold

theorem mem_awaited_of_suffix {bind : Option String} {rest : List Step}
    (h : (.await name bind :: rest) <:+ script) : name ∈ Step.awaited script := by
  obtain ⟨before, rfl⟩ := h
  induction before with
  | nil => exact List.mem_cons_self
  | cons step others ih => cases step <;> simp [Step.awaited, ih]

/-- Where nothing can be polled, the tasks that have ended are a closed set. -/
theorem Reaches.closedUnder_of_settled (h : Reaches (start names tasks) deeds schedule)
    (hfresh : AllUnstarted tasks) (hplain : ArePlain tasks) (hemittable : Emittable tasks)
    (hsettled : schedule.step = .settled) :
    ClosedUnder tasks {position | schedule.hasEnded position = true} := by
  have haccounted := h.accounted hfresh
  have hsteady := h.steady hfresh hplain hemittable
  have hnone := step_eq_settled_iff.mp hsettled
  intro position task script hstart hscript hdependencies hawaited
  have hbound := (List.getElem?_eq_some_iff.mp hstart).1
  rw [← haccounted.length] at hbound
  obtain ⟨found, hpresent⟩ : ∃ found, schedule.tasks[position]? = some found :=
    ⟨_, List.getElem?_eq_getElem hbound⟩
  have hpoll := hnone found (List.mem_of_getElem? hpresent)
  obtain ⟨_, horigin, _⟩ := haccounted.accounts hpresent
  obtain rfl := Option.some.inj (horigin.symm.trans hstart)
  obtain rfl := Progress.unstarted.inj hscript
  cases hprogress : found.progress with
  | ended => exact hasEnded_eq_true_iff.mpr ⟨found, hpresent, hprogress⟩
  | unstarted =>
      refine absurd (.inr ?_) hpoll
      simp only [Task.canStart, hprogress, List.all_eq_true]
      exact hdependencies
  | parked pause rest own =>
      obtain ⟨script', name, bind, hsame, rfl, hreached⟩ := hsteady.parked hpresent hprogress
      obtain rfl := Progress.unstarted.inj (congrArg Task.progress
        (Option.some.inj (horigin.symm.trans hsame)))
      obtain ⟨provider, hended, hprovides⟩ :=
        hawaited name (mem_awaited_of_suffix hreached.suffix)
      refine absurd (.inl ?_) hpoll
      simp only [Task.canResume, Task.pause?, hprogress, Option.any_some, Pause.name]
      exact hsteady.provided hended hprovides

def completable (tasks : List Task) : Set Nat :=
  {position | ∀ C, ClosedUnder tasks C → position ∈ C}

theorem isLeast_completable (tasks : List Task) :
    IsLeast {C | ClosedUnder tasks C} (completable tasks) := by
  constructor
  · intro position task script hpresent hscript hdependencies hawaited C hclosed
    refine hclosed position task script hpresent hscript
      (fun dependency hmem => hdependencies dependency hmem C hclosed) fun name hname => ?_
    obtain ⟨other, hother, hprovides⟩ := hawaited name hname
    exact ⟨other, hother C hclosed, hprovides⟩
  · exact fun C hclosed position hmem => hmem C hclosed

theorem Assigns.emittable {instances : List Instance} (h : Assigns ordered tasks)
    (hordered : Ordered.ofInstances instances = .ok ordered)
    (hdistinct : (instances.map (·.id.name)).Nodup)
    (hroles : ∀ inst ∈ instances, inst.declaration.capabilities.Nodup) : Emittable tasks := by
  have hperm := Ordered.instances_perm hordered
  rw [← h.instances] at hperm
  constructor
  · have hnames := (hperm.map (·.id.name)).nodup_iff.mpr hdistinct
    rwa [List.map_map] at hnames
  · intro task hmem
    exact hroles _ (hperm.mem_iff.mp (List.mem_map_of_mem hmem))

/-- The run of plain tasks completes exactly the tasks that can be completed, and it
succeeds exactly if all of them can.  If it does not, no order of polls ends all
tasks. -/
theorem run_completes_least {instances : List Instance}
    (hordered : Ordered.ofInstances instances = .ok ordered)
    (hassigns : Assigns ordered tasks) (hdistinct : (instances.map (·.id.name)).Nodup)
    (hroles : ∀ inst ∈ instances, inst.declaration.capabilities.Nodup)
    (hplain : ArePlain tasks) (hleast : IsLeast {C | ClosedUnder tasks C} C) :
    ((∃ code, (start names tasks).run.result = .ok code) ↔
      ∀ position < tasks.length, position ∈ C) ∧
    (∃ deeds final, Runs (start names tasks) deeds final ∧ final.step = .settled ∧
      (start names tasks).run = ⟨final.verdict, final.shared.trace⟩ ∧
      ∀ position, final.hasEnded position = true ↔ position ∈ C) ∧
    ((∀ code, (start names tasks).run.result ≠ .ok code) →
      ∀ deeds final, Reaches (start names tasks) deeds final →
        ∃ position < tasks.length, final.hasEnded position = false) := by
  have hfresh := hassigns.fresh
  have hemittable := hassigns.emittable hordered hdistinct hroles
  obtain ⟨deeds, final, hruns, ⟨hsettled, hrun⟩ | ⟨failure, shared, hfailed, _⟩⟩ :=
    exists_runs (start names tasks)
  · have hreaches := hruns.reaches
    have haccounted := hreaches.accounted hfresh
    have hended : ∀ position, final.hasEnded position = true ↔ position ∈ C := fun position =>
      ⟨hreaches.mem_of_hasEnded hfresh hplain hemittable hleast.1 position,
        fun hmem => hleast.2
          (hreaches.closedUnder_of_settled hfresh hplain hemittable hsettled) hmem⟩
    have hok : (∃ code, (start names tasks).run.result = .ok code) ↔
        ∀ position < tasks.length, position ∈ C := by
      rw [hrun]
      constructor
      · rintro ⟨code, hcode⟩ position hbound
        rw [← haccounted.length] at hbound
        exact (hended position).mp (hasEnded_of_settled
          (haccounted.downward (hassigns.downward hordered)) (step_eq_settled_iff.mp hsettled)
          (verdict_eq_ok_iff.mp hcode).1 hbound)
      · intro hall
        refine ⟨final.shared.code, verdict_eq_ok_iff.mpr ⟨fun task hmem => ?_, rfl⟩⟩
        obtain ⟨position, hpresent⟩ := List.mem_iff_getElem?.mp hmem
        have hbound := (List.getElem?_eq_some_iff.mp hpresent).1
        rw [haccounted.length] at hbound
        obtain ⟨_, hsame, hprogress⟩ :=
          hasEnded_eq_true_iff.mp ((hended position).mpr (hall position hbound))
        obtain rfl := Option.some.inj (hpresent.symm.trans hsame)
        simp [Task.pause?, hprogress]
    refine ⟨hok, ⟨deeds, final, hruns, hsettled, hrun, hended⟩, ?_⟩
    intro hfails more other hother
    by_contra hall
    have hmem : ∀ position < tasks.length, position ∈ C := by
      intro position hbound
      apply hother.mem_of_hasEnded hfresh hplain hemittable hleast.1 position
      by_contra hrunning
      exact hall ⟨position, hbound, Bool.eq_false_iff.mpr hrunning⟩
    obtain ⟨code, hcode⟩ := hok.mpr hmem
    exact hfails code hcode
  · have hsteady := hruns.reaches.steady hfresh hplain hemittable
    exact absurd hfailed
      (hsteady.step_ne_failed hplain hemittable (hruns.reaches.accounted hfresh) _ _)

def valve (name : String) : Instance where
  index := 0
  declaration := { Declaration.ofSchema "valve" (.empty "valve") with
    capabilities := [.schedulable] }
  config := .empty (Path.root.field name)
  id := ⟨name, "Valve", true⟩

/-- Three valves none of which depends on another. -/
def valves : Ordered := ⟨[valve "inlet", valve "outlet", valve "drain"], [[], [], []]⟩

/-- The inlet waits for the outlet, and the drain for a variable that nobody
declares. -/
def valveTasks : List Task :=
  [⟨valve "inlet", [], true, .unstarted [.await "outlet" none, .act (.declare .own [])]⟩,
    ⟨valve "outlet", [], true, .unstarted [.act (.declare .own [])]⟩,
    ⟨valve "drain", [], true, .unstarted [.await "pump" none]⟩]

theorem assigns_valves : Assigns valves valveTasks where
  instances := rfl
  dependencies {position task} hpresent := by
    match position, hpresent with
    | 0, hpresent => exact Option.some.inj hpresent ▸ rfl
    | 1, hpresent => exact Option.some.inj hpresent ▸ rfl
    | 2, hpresent => exact Option.some.inj hpresent ▸ rfl
  fresh := by simp [AllUnstarted, valveTasks]

/-- No order of polls ends the routines of all valves. -/
theorem valves_stall :
    ¬ ∃ deeds final, Reaches (start .empty valveTasks) deeds final ∧
      ∀ position < valveTasks.length, final.hasEnded position = true := by
  have hordered : Ordered.ofInstances valves.instances = .ok valves := by cbv
  have hplain : ArePlain valveTasks := by
    intro task hmem script hscript
    simp only [valveTasks, List.mem_cons, List.not_mem_nil, or_false] at hmem
    rcases hmem with rfl | rfl | rfl <;> exact Progress.unstarted.inj hscript ▸ by decide
  have hstalls : (start .empty valveTasks).run.result.isOk = false := by decide +kernel
  have hfails : ∀ code, (start .empty valveTasks).run.result ≠ .ok code := by
    intro code hcode
    simp [hcode, Except.isOk, Except.toBool] at hstalls
  rintro ⟨deeds, final, hreaches, hended⟩
  obtain ⟨position, hbound, hrunning⟩ := (run_completes_least hordered assigns_valves
    (by decide) (by decide) hplain (isLeast_completable valveTasks)).2.2 hfails deeds final hreaches
  simp [hended position hbound] at hrunning

end Schedule

end Firmware
