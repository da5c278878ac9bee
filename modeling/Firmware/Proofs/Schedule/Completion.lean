import Firmware.Proofs.Graph.Edges
import Firmware.Proofs.Schedule.Account
/-!
Complete runs.  Ordered instances depend on earlier ones only, so a task that has not
been started waits in the end for one that is parked.  A run that succeeds leaves no
task parked, and therefore has ended all of them.
-/

namespace Firmware

namespace Schedule

variable {components : Components} {ordered : Ordered} {names : NameTable} {tasks : List Task}
  {schedule : Schedule} {deeds : List Deed} {position : Nat} {task : Task}

/-- Tasks of ordered instances that have not been started, each with a script of its
own. -/
structure Assigns (ordered : Ordered) (tasks : List Task) : Prop where
  instances : tasks.map (·.inst) = ordered.instances
  dependencies : ∀ {position : Nat} {task : Task}, tasks[position]? = some task →
    task.dependencies = ordered.dependenciesOf position
  fresh : AllUnstarted tasks

theorem tasksOf_getElem? (h : tasksOf components ordered = .ok tasks) (position : Nat) :
    (ordered.instances[position]?).map
        (fun inst => taskOf components inst (ordered.dependenciesOf position)) =
      (tasks[position]?).map .ok := by
  have hmapped := congrArg (·[position]?) (mapM_eq_ok_iff.mp h)
  simpa only [List.getElem?_map, List.getElem?_zipIdx, Option.map_map, Function.comp_def,
    Nat.zero_add] using hmapped

theorem taskOf_eq_ok {inst : Instance} {dependencies : List Nat}
    (h : taskOf components inst dependencies = .ok task) :
    ∃ component, components.find inst.kind = .ok component ∧
      task = ⟨inst, dependencies, component.observed,
        .unstarted (component.routine inst.id inst.config)⟩ := by
  unfold taskOf at h
  split at h
  · next component hfound => exact ⟨component, hfound, (Except.ok.inj h).symm⟩
  · simp at h

/-- The tasks of a run are those of its instances, with the routines of their
kinds. -/
theorem assigns_tasksOf (h : tasksOf components ordered = .ok tasks) :
    Assigns ordered tasks := by
  have hspec : ∀ {position : Nat} {task : Task}, tasks[position]? = some task →
      ordered.instances[position]? = some task.inst ∧
        task.dependencies = ordered.dependenciesOf position ∧
        ∃ script, task.progress = .unstarted script := by
    intro position task hpresent
    have hat := tasksOf_getElem? h position
    rw [hpresent, Option.map_some] at hat
    obtain ⟨inst, hinst, htask⟩ := Option.map_eq_some_iff.mp hat
    obtain ⟨component, _, rfl⟩ := taskOf_eq_ok htask
    exact ⟨hinst, rfl, _, rfl⟩
  refine ⟨?_, fun hpresent => (hspec hpresent).2.1, ?_⟩
  · apply List.ext_getElem?
    intro position
    rw [List.getElem?_map]
    cases hpresent : tasks[position]? with
    | none =>
        have hat := tasksOf_getElem? h position
        rw [hpresent, Option.map_none, Option.map_eq_none_iff] at hat
        rw [hat, Option.map_none]
    | some task => rw [(hspec hpresent).1, Option.map_some]
  · intro task hmem
    obtain ⟨position, hpresent⟩ := List.mem_iff_getElem?.mp hmem
    exact (hspec hpresent).2.2

theorem Assigns.getElem? (h : Assigns ordered tasks) (position : Nat) :
    ordered.instances[position]? = (tasks[position]?).map (·.inst) := by
  rw [← h.instances, List.getElem?_map]

/-- Every task depends on earlier ones only. -/
def Downward (tasks : List Task) : Prop :=
  ∀ (position : Nat) (task : Task), tasks[position]? = some task →
    ∀ dependency ∈ task.dependencies, dependency < position

theorem Assigns.downward {instances : List Instance} (h : Assigns ordered tasks)
    (hordered : Ordered.ofInstances instances = .ok ordered) : Downward tasks := by
  intro position task hpresent dependency hmem
  rw [h.dependencies hpresent] at hmem
  exact Ordered.lt_of_mem_dependenciesOf hordered hmem

/-- Whatever is polled, the task at a position stays the one of the instance there. -/
theorem Assigns.exists_task {inst : Instance} (h : Assigns ordered tasks)
    (haccounted : Accounted tasks deeds schedule)
    (hinst : ordered.instances[position]? = some inst) :
    ∃ task, schedule.tasks[position]? = some task ∧ task.inst = inst ∧
      task.dependencies = ordered.dependenciesOf position := by
  obtain ⟨start, hstart, hsame⟩ :=
    Option.map_eq_some_iff.mp ((h.getElem? position).symm.trans hinst)
  have hbound := (List.getElem?_eq_some_iff.mp hstart).1
  rw [← haccounted.length] at hbound
  have hpresent := List.getElem?_eq_getElem hbound
  obtain ⟨_, horigin, _⟩ := haccounted.accounts hpresent
  obtain rfl := Option.some.inj (horigin.symm.trans hstart)
  have hdependencies := h.dependencies hstart
  exact ⟨_, hpresent, hsame, hdependencies⟩

theorem Accounted.downward (h : Accounted tasks deeds schedule) (hdownward : Downward tasks) :
    Downward schedule.tasks := by
  intro position task hpresent dependency hmem
  obtain ⟨_, horigin, _⟩ := h.accounts hpresent
  exact hdownward position _ horigin dependency hmem

theorem progress_of_idle (hidle : task.pause? = none) :
    task.progress = .ended ∨ ∃ script, task.progress = .unstarted script := by
  cases hprogress : task.progress with
  | unstarted script => exact .inr ⟨script, rfl⟩
  | parked pause rest own => simp [Task.pause?, hprogress] at hidle
  | ended => exact .inl rfl

/-- Where nothing can be polled and nothing is parked, everything has ended. -/
theorem hasEnded_of_settled (hdownward : Downward schedule.tasks)
    (hsettled : ∀ task ∈ schedule.tasks, ¬ schedule.CanPoll task)
    (hidle : ∀ task ∈ schedule.tasks, task.pause? = none)
    (hbound : position < schedule.tasks.length) : schedule.hasEnded position = true := by
  induction position using Nat.strongRecOn with
  | ind position ih =>
      have hpresent := List.getElem?_eq_getElem hbound
      have hmem := List.getElem_mem hbound
      rcases progress_of_idle (hidle _ hmem) with hended | ⟨script, hfresh⟩
      · exact hasEnded_eq_true_iff.mpr ⟨_, hpresent, hended⟩
      · refine absurd (.inr ?_) (hsettled _ hmem)
        simp only [Task.canStart, hfresh, List.all_eq_true]
        intro dependency hdependency
        have hlt := hdownward position _ hpresent dependency hdependency
        exact ih dependency hlt (Nat.lt_trans hlt hbound)

theorem progress_of_settled (hdownward : Downward schedule.tasks)
    (hsettled : ∀ task ∈ schedule.tasks, ¬ schedule.CanPoll task)
    (hidle : ∀ task ∈ schedule.tasks, task.pause? = none) :
    ∀ task ∈ schedule.tasks, task.progress = .ended := by
  intro task hmem
  obtain ⟨position, hpresent⟩ := List.mem_iff_getElem?.mp hmem
  have hended := hasEnded_of_settled hdownward hsettled hidle
    (List.getElem?_eq_some_iff.mp hpresent).1
  obtain ⟨_, hsame, hprogress⟩ := hasEnded_eq_true_iff.mp hended
  obtain rfl := Option.some.inj (hpresent.symm.trans hsame)
  exact hprogress

/-- A schedule comes to its code exactly if no task is parked. -/
theorem verdict_eq_ok_iff {code : Code} :
    schedule.verdict = .ok code ↔
      (∀ task ∈ schedule.tasks, task.pause? = none) ∧ schedule.shared.code = code := by
  have hstalled : schedule.tasks.filterMap stalledProblem? = [] ↔
      ∀ task ∈ schedule.tasks, task.pause? = none := by
    simp [List.filterMap_eq_nil_iff, stalledProblem?]
  rw [← hstalled, verdict]
  split
  · next hnone => simp [hnone]
  · next problems hne => exact iff_of_false (by simp) fun h => hne h.1

theorem run_eq_ok {code : Code} (hfresh : AllUnstarted tasks) (hdownward : Downward tasks)
    (h : ((start names tasks).run).result = .ok code) :
    ∃ deeds final, Runs (start names tasks) deeds final ∧ final.step = .settled ∧
      (∀ task ∈ final.tasks, task.progress = .ended) ∧ final.shared.code = code ∧
      ((start names tasks).run).trace = final.shared.trace := by
  obtain ⟨deeds, final, hruns, ⟨hsettled, hrun⟩ | ⟨_, _, _, hrun⟩⟩ :=
    exists_runs (start names tasks)
  · rw [hrun] at h ⊢
    obtain ⟨hidle, hcode⟩ := verdict_eq_ok_iff.mp h
    refine ⟨deeds, final, hruns, hsettled, ?_, hcode, rfl⟩
    exact progress_of_settled ((hruns.reaches.accounted hfresh).downward hdownward)
      (step_eq_settled_iff.mp hsettled) hidle
  · rw [hrun] at h
    simp at h

theorem emit_eq_ok {instances : List Instance} {code : Code}
    (hordered : Ordered.ofInstances instances = .ok ordered)
    (h : (emit components names ordered).result = .ok code) :
    ∃ tasks deeds final, Assigns ordered tasks ∧
      Runs (start names tasks) deeds final ∧ final.step = .settled ∧
      (∀ task ∈ final.tasks, task.progress = .ended) ∧ final.shared.code = code ∧
      (emit components names ordered).trace = final.shared.trace := by
  unfold emit at h ⊢
  split at h
  · next tasks htasks =>
      obtain ⟨deeds, final, hruns, hends⟩ :=
        run_eq_ok (assigns_tasksOf htasks).fresh ((assigns_tasksOf htasks).downward hordered) h
      exact ⟨tasks, deeds, final, assigns_tasksOf htasks, hruns, hends⟩
  · simp at h

end Schedule

end Firmware
