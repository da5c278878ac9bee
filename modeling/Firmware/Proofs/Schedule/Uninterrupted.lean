import Firmware.Proofs.Graph.Cycle
import Firmware.Proofs.Schedule.Assembly
import Firmware.Proofs.Schedule.Turns
import Firmware.Proofs.Schedule.Visibility
import Firmware.Proofs.Schedule.Waiting
/-!
Runs without interruption.  Routines that await nothing but the variables of instances that
their own depend on, be it through others, never have to wait, because these have ended before.
A run then is plain emission of one instance after another, and it only fails where a routine
or a role does.
-/

namespace Firmware

/-- Whether the instance at one position depends on that at another. -/
def Ordered.DependsOn (ordered : Ordered) (position other : Nat) : Prop :=
  other ∈ ordered.dependenciesOf position

/-- What is done for a task in one go: its routine passes over all of its steps, each in the
state before it, and the roles of its instance are emitted. -/
structure Turn where
  task : Task
  passed : List (Local × Step)

namespace Turn

def deeds (turn : Turn) (position : Nat) : List Deed :=
  turn.task.deeds position .started turn.passed ++ turn.task.closing position

def routineStatements (turn : Turn) : List Statement :=
  (turn.passed.flatMap fun pair => pair.2.pieces pair.1).filterMap Piece.statement?

def roleStatements (turn : Turn) : List Statement :=
  (turn.task.inst.declaration.capabilities.flatMap (Capability.pieces turn.task.inst)).filterMap
    Piece.statement?

/-- The deeds of turns one after another. -/
def deedsOf (turns : List Turn) : List Deed :=
  turns.zipIdx.flatMap fun (turn, position) => turn.deeds position

theorem deedsOf_concat (turns : List Turn) (turn : Turn) :
    deedsOf (turns ++ [turn]) = deedsOf turns ++ turn.deeds turns.length := by
  simp [deedsOf, List.zipIdx_append]

/-- Turns add their statements in order, those of the roles after those of the routine. -/
theorem statements_deedsOf (turns : List Turn) :
    ((deedsOf turns).flatMap Deed.pieces).filterMap Piece.statement? =
      turns.flatMap fun turn => turn.routineStatements ++ turn.roleStatements := by
  have hturn : ∀ (turn : Turn) (position : Nat),
      ((turn.deeds position).flatMap Deed.pieces).filterMap Piece.statement? =
        turn.routineStatements ++ turn.roleStatements := by
    intro turn position
    rw [deeds, List.flatMap_append, Task.pieces_deeds, Task.pieces_closing, List.filterMap_append]
    rfl
  conv_rhs => rw [← List.zipIdx_map_fst 0 turns, List.flatMap_map]
  rw [deedsOf, List.flatMap_assoc, List.filterMap_flatMap]
  simp only [hturn]

end Turn

namespace Schedule

variable {names : NameTable} {tasks : List Task} {deeds more : List Deed} {ordered : Ordered}
  {schedule schedule' : Schedule} {task : Task} {position other : Nat} {inst : Instance}
  {turns : List Turn}

/-- Routines that only wait for the variables of instances which their own depend on, directly
or through others. -/
def AwaitDependencies (ordered : Ordered) (tasks : List Task) : Prop :=
  ∀ position task script, tasks[position]? = some task → task.progress = .unstarted script →
    Step.suspend ∉ script ∧ ∀ name bind, Step.await name bind ∈ script →
      ∃ other inst, Relation.TransGen ordered.DependsOn position other ∧
        ordered.instances[other]? = some inst ∧ inst.id.name = name

/-- All that a task depends on, directly or through others, has ended when it is polled. -/
theorem Accounted.hasEnded_of_chain (h : Accounted tasks deeds schedule)
    (hassigns : Assigns ordered tasks) (hpresent : schedule.tasks[position]? = some task)
    (hallowed : schedule.CanPoll task)
    (hchain : Relation.TransGen ordered.DependsOn position other) :
    schedule.hasEnded other = true := by
  have hdependencies : ∀ {position : Nat} {task : Task}, schedule.tasks[position]? = some task →
      task.dependencies = ordered.dependenciesOf position := by
    intro position task hpresent
    obtain ⟨_, horigin, _⟩ := h.accounts hpresent
    have hsame := hassigns.dependencies horigin
    exact hsame
  induction hchain with
  | single hdirect =>
      exact h.hasEnded_dependencies hpresent hallowed _ (hdependencies hpresent ▸ hdirect)
  | tail _ hdirect ih =>
      obtain ⟨middle, hmiddle, hprogress⟩ := hasEnded_eq_true_iff.mp ih
      exact h.dependencies hmiddle (by simp [hprogress]) _ (hdependencies hmiddle ▸ hdirect)

/-- The variable of an instance whose routine has ended is visible. -/
theorem Reaches.contains_of_hasEnded (h : Reaches (start names tasks) deeds schedule)
    (hassigns : Assigns ordered tasks) (hinst : ordered.instances[other]? = some inst)
    (hended : schedule.hasEnded other = true) :
    Table.contains schedule.shared.published inst.id.name = true := by
  have haccounted := h.accounted hassigns.fresh
  obtain ⟨task, hpresent, rfl, _⟩ := hassigns.exists_task haccounted hinst
  obtain ⟨_, hsame, hprogress⟩ := hasEnded_eq_true_iff.mp hended
  obtain rfl := Option.some.inj (hpresent.symm.trans hsame)
  exact (h.visible hassigns.fresh).shown ⟨other, task, hpresent, hprogress, by simp⟩

/-- No routine has to wait. -/
theorem Reaches.not_waits {act : Act} {own own' last : Local} {before after final : Shared}
    {steps rest : List Step} {step : Step} {pause : Pause} {passed : List (Local × Step)}
    (h : Reaches (start names tasks) deeds schedule) (hassigns : Assigns ordered tasks)
    (hawait : AwaitDependencies ordered tasks) (hpresent : schedule.tasks[position]? = some task)
    (hallowed : schedule.CanPoll task)
    (hbegins : task.Begins position schedule.shared act own before steps)
    (hpasses : Step.Passes own before steps passed own' after (step :: rest)) :
    ¬ Step.Waits own' after step pause last final := by
  intro hwaits
  have haccounted := h.accounted hassigns.fresh
  obtain ⟨script, horigin, haccounts⟩ := haccounted.accounts hpresent
  obtain ⟨body, _, _, hscript⟩ := haccounts.of_passes hbegins hpasses.map_append
  have hstep : step ∈ script := by simp [← hscript]
  obtain ⟨hnever, hnames⟩ := hawait position _ script horigin rfl
  cases hwaits with
  | suspend => exact hnever hstep
  | @await name bind hhidden =>
      obtain ⟨other, inst, hchain, hinst, rfl⟩ := hnames name bind hstep
      have hended := haccounted.hasEnded_of_chain hassigns hpresent hallowed hchain
      have hvisible := h.contains_of_hasEnded hassigns hinst hended
      rw [hpasses.published, hbegins.published] at hhidden
      simp [Table.contains, hhidden] at hvisible

/-- No routine is ever parked, in whatever order tasks are polled. -/
theorem Reaches.pause?_eq_none (h : Reaches (start names tasks) deeds schedule)
    (hassigns : Assigns ordered tasks) (hawait : AwaitDependencies ordered tasks)
    (hpresent : schedule.tasks[position]? = some task) : task.pause? = none := by
  induction h generalizing position task with
  | refl =>
      obtain ⟨script, hprogress⟩ := hassigns.fresh task (List.mem_of_getElem? hpresent)
      simp [Task.pause?, hprogress]
  | poll hreaches hpolls ih =>
      cases hpolls with
      | ends =>
          rcases getElem?_advance_cases hpresent with ⟨_, rfl⟩ | ⟨_, hother⟩
          · rfl
          · exact ih hother
      | parks hpolled hallowed hbegins hpasses hwaits =>
          exact absurd hwaits
            (hreaches.not_waits hassigns hawait hpolled hallowed hbegins hpasses)

theorem exists_advance_of_step (h : schedule.step = .next schedule')
    (hnext : schedule.next? = some position) :
    ∃ task progress shared, schedule' = schedule.advance position task progress shared := by
  simp only [step, hnext] at h
  split at h
  · simp at h
  · next task _ =>
      split at h
      · simp at h
      · next poll _ =>
          cases poll with
          | failed => simp [absorb] at h
          | paused => exact ⟨_, _, _, (Move.next.inj h).symm⟩
          | ended own ended =>
              simp only [absorb] at h
              split at h
              · exact ⟨_, _, _, (Move.next.inj h).symm⟩
              · simp at h

/-- What a run has come to when some tasks have had their turns, one after another from the
first on, and nothing else has been done. -/
structure InTurns (tasks : List Task) (turns : List Turn) (deeds : List Deed)
    (schedule : Schedule) : Prop where
  ended : schedule.tasks = afterTurns tasks turns.length
  first : turns.map (·.task) = tasks.take turns.length
  done : deeds = Turn.deedsOf turns
  scripts : ∀ turn ∈ turns, turn.task.progress = .unstarted (turn.passed.map Prod.snd)

theorem inTurns_start (names : NameTable) (tasks : List Task) :
    InTurns tasks [] [] (start names tasks) :=
  ⟨(afterTurns_zero tasks).symm, rfl, rfl, by simp⟩

theorem InTurns.hasEnded_of_lt (h : InTurns tasks turns deeds schedule)
    (hbound : position < tasks.length) (hlt : position < turns.length) :
    schedule.hasEnded position = true := by
  have hended : hasEnded ⟨afterTurns tasks turns.length, schedule.shared⟩ position = true :=
    hasEnded_afterTurns hbound hlt
  rwa [← h.ended] at hended

theorem InTurns.next?_eq (h : InTurns tasks turns deeds schedule) (hfresh : AllUnstarted tasks)
    (hdownward : Downward tasks) (hbound : turns.length < tasks.length) :
    schedule.next? = some turns.length := by
  have hnext : next? ⟨afterTurns tasks turns.length, schedule.shared⟩ = some turns.length :=
    next?_afterTurns hfresh hdownward (List.getElem?_eq_getElem hbound)
  rwa [← h.ended] at hnext

/-- The poll that a run makes ends the routine whose turn it is. -/
theorem InTurns.position_eq {final : Shared} (h : InTurns tasks turns deeds schedule)
    (hfresh : AllUnstarted tasks) (hdownward : Downward tasks)
    (hpresent : schedule.tasks[position]? = some task) (hallowed : schedule.CanPoll task)
    (hmoved : schedule.step = .next (schedule.advance position task .ended final)) :
    position = turns.length ∧ turns.length < tasks.length := by
  have hlength : position < tasks.length := by
    have hbound := (List.getElem?_eq_some_iff.mp hpresent).1
    simpa [h.ended, afterTurns] using hbound
  have hge : turns.length ≤ position := by
    by_contra hlt
    exact hallowed.hasEnded_ne hpresent (h.hasEnded_of_lt hlength (Nat.lt_of_not_le hlt))
  have hbound := Nat.lt_of_le_of_lt hge hlength
  obtain ⟨found, progress, shared, hadvance⟩ :=
    exists_advance_of_step hmoved (h.next?_eq hfresh hdownward hbound)
  refine ⟨?_, hbound⟩
  by_contra hne
  have hended : (schedule.advance position task .ended final).hasEnded position = true :=
    (hasEnded_advance_iff hpresent hallowed).mpr (.inl ⟨rfl, rfl⟩)
  rw [hadvance, hasEnded_eq_true_iff, getElem?_advance_of_ne (Ne.symm hne),
    ← hasEnded_eq_true_iff] at hended
  exact hallowed.hasEnded_ne hpresent hended

theorem InTurns.concat {act : Act} {own last : Local} {before after final : Shared}
    {steps : List Step} {passed : List (Local × Step)} (h : InTurns tasks turns deeds schedule)
    (hfresh : AllUnstarted tasks) (hbound : turns.length < tasks.length)
    (hpresent : schedule.tasks[turns.length]? = some task)
    (hbegins : task.Begins turns.length schedule.shared act own before steps)
    (hpasses : Step.Passes own before steps passed last after []) :
    InTurns tasks (turns ++ [⟨task, passed⟩])
      (deeds ++ (task.deeds turns.length act passed ++ task.closing turns.length))
      (schedule.advance turns.length task .ended final) := by
  have horigin : tasks[turns.length]? = some task := by
    rw [h.ended, getElem?_afterTurns, List.getElem?_eq_getElem hbound] at hpresent
    rw [List.getElem?_eq_getElem hbound]
    simpa using hpresent
  obtain ⟨script, hprogress⟩ := hfresh task (List.mem_of_getElem? horigin)
  have hsteps : passed.map Prod.snd = steps := by simpa using hpasses.map_append
  have hfirst : act = .started ∧ script = steps := by
    cases hbegins with
    | start hscript => exact ⟨rfl, Progress.unstarted.inj (hprogress.symm.trans hscript)⟩
    | receive hparked => simp [hprogress] at hparked
    | resume hparked => simp [hprogress] at hparked
  obtain ⟨rfl, rfl⟩ := hfirst
  refine ⟨?_, ?_, ?_, ?_⟩
  · have hadvance : advance ⟨afterTurns tasks turns.length, schedule.shared⟩ turns.length task
        .ended final = ⟨afterTurns tasks (turns.length + 1), final⟩ := advance_afterTurns horigin
    rw [← h.ended] at hadvance
    rw [List.length_append, List.length_singleton]
    exact congrArg Schedule.tasks hadvance
  · rw [List.map_append, h.first, List.length_append, List.length_singleton, List.take_add_one,
      horigin]
    rfl
  · rw [Turn.deedsOf_concat, h.done]
    rfl
  · intro turn hmem
    rcases List.mem_append.mp hmem with hearlier | hlast
    · exact h.scripts turn hearlier
    · rw [List.mem_singleton.mp hlast, hprogress, hsteps]

/-- At every point of a run the first few tasks have had their turns. -/
theorem Runs.exists_inTurns (h : Runs (start names tasks) deeds schedule)
    (hassigns : Assigns ordered tasks) (hawait : AwaitDependencies ordered tasks)
    (hdownward : Downward tasks) : ∃ turns, InTurns tasks turns deeds schedule := by
  induction h with
  | refl => exact ⟨[], inTurns_start names tasks⟩
  | poll hruns hpolls hmoved ih =>
      obtain ⟨turns, hturns⟩ := ih
      cases hpolls with
      | parks hpresent hallowed hbegins hpasses hwaits =>
          exact absurd hwaits
            (hruns.reaches.not_waits hassigns hawait hpresent hallowed hbegins hpasses)
      | ends hpresent hallowed hbegins hpasses hconcluded =>
          obtain ⟨rfl, hbound⟩ :=
            hturns.position_eq hassigns.fresh hdownward hpresent hallowed hmoved
          exact ⟨_, hturns.concat hassigns.fresh hbound hpresent hbegins hpasses⟩

/-- When all tasks have ended, all have had their turns. -/
theorem InTurns.map_task (h : InTurns tasks turns deeds schedule) (hfresh : AllUnstarted tasks)
    (hended : ∀ task ∈ schedule.tasks, task.progress = .ended) :
    turns.map (·.task) = tasks := by
  have hlength : tasks.length ≤ turns.length := by
    by_contra hlt
    have hbound := Nat.lt_of_not_le hlt
    obtain ⟨script, hprogress⟩ := hfresh _ (List.getElem_mem hbound)
    have hpresent : schedule.tasks[turns.length]? = some tasks[turns.length] := by
      rw [h.ended, getElem?_afterTurns, List.getElem?_eq_getElem hbound]
      simp
    simp [hended _ (List.mem_of_getElem? hpresent)] at hprogress
  rw [h.first, List.take_of_length_le hlength]

/-- Routines that wait only for what their instances depend on are never parked, and a run
of them fails only where a poll does, for another reason than a name.  If no poll fails, the
run does nothing but give each task its turn, one after another, and its statements are those
of each routine and of the roles after it, in this order. -/
theorem run_in_sequence {instances : List Instance} (names : NameTable)
    (hordered : Ordered.ofInstances instances = .ok ordered) (hassigns : Assigns ordered tasks)
    (hawait : AwaitDependencies ordered tasks) :
    (∀ deeds schedule, Reaches (start names tasks) deeds schedule →
      ∀ task ∈ schedule.tasks, task.pause? = none) ∧
    (∀ failure, (start names tasks).run.result = .error failure →
      (∃ deeds last shared, Runs (start names tasks) deeds last ∧
        last.step = .failed failure shared) ∧
      ∀ cause ∈ failure.causes, cause.kind ≠ .unresolvedId) ∧
    ((∀ deeds last failure shared, Runs (start names tasks) deeds last →
        last.step ≠ .failed failure shared) →
      ∃ (code : Code) (turns : List Turn) (final : Schedule),
        (start names tasks).run.result = .ok code ∧
        turns.map (·.task) = tasks ∧
        (∀ turn ∈ turns, turn.task.progress = .unstarted (turn.passed.map Prod.snd)) ∧
        Runs (start names tasks) (Turn.deedsOf turns) final ∧ final.shared.code = code ∧
        code.statements =
          turns.flatMap fun turn => turn.routineStatements ++ turn.roleStatements) := by
  have hdownward := hassigns.downward hordered
  have hidle : ∀ deeds schedule, Reaches (start names tasks) deeds schedule →
      ∀ task ∈ schedule.tasks, task.pause? = none := by
    intro deeds schedule hreaches task hmem
    obtain ⟨position, hpresent⟩ := List.mem_iff_getElem?.mp hmem
    exact hreaches.pause?_eq_none hassigns hawait hpresent
  refine ⟨hidle, ?_, ?_⟩
  · intro failure hfails
    obtain ⟨deeds, last, hruns, ⟨hsettled, hrun⟩ | ⟨_, shared, hfailed, hrun⟩⟩ :=
      exists_runs (start names tasks)
    · have hok := verdict_eq_ok_iff.mpr ⟨hidle deeds last hruns.reaches, rfl⟩
      rw [hrun, hok] at hfails
      simp at hfails
    · rw [hrun] at hfails
      obtain rfl := Except.error.inj hfails
      refine ⟨⟨deeds, last, shared, hruns, hfailed⟩, ?_⟩
      obtain ⟨own, fault, rfl⟩ := exists_fault_of_step hfailed
      intro cause hcause
      rw [List.mem_singleton.mp hcause]
      simp
  · intro hnever
    obtain ⟨deeds, final, hruns, ⟨hsettled, hrun⟩ | ⟨failure, shared, hfailed, _⟩⟩ :=
      exists_runs (start names tasks)
    · obtain ⟨turns, hturns⟩ := hruns.exists_inTurns hassigns hawait hdownward
      obtain rfl := hturns.done
      have hsuspended := hidle _ final hruns.reaches
      have hended := progress_of_settled
        ((hruns.reaches.accounted hassigns.fresh).downward hdownward)
        (step_eq_settled_iff.mp hsettled) hsuspended
      refine ⟨final.shared.code, turns, final, ?_, hturns.map_task hassigns.fresh hended,
        hturns.scripts, hruns, rfl, ?_⟩
      · rw [hrun]
        exact verdict_eq_ok_iff.mpr ⟨hsuspended, rfl⟩
      · rw [hruns.reaches.code]
        exact Turn.statements_deedsOf turns
    · exact absurd hfailed (hnever deeds final failure shared hruns)

/-- A line of stations, each of which refers to the one before it. -/
def line : Ordered :=
  ⟨[Graph.station 0 "a" [], Graph.station 1 "b" ["a"], Graph.station 2 "c" ["b"]],
    [[], [0], [1]]⟩

/-- The last station waits for the first, on which it depends through the other. -/
def lineTasks : List Task :=
  [⟨Graph.station 0 "a" [], [], true, .unstarted [.act (.declare .own [])]⟩,
    ⟨Graph.station 1 "b" ["a"], [0], true, .unstarted [.act (.comment "b")]⟩,
    ⟨Graph.station 2 "c" ["b"], [1], true,
      .unstarted [.await "a" (some "first"), .act (.add (.bound "first"))]⟩]

theorem ofInstances_line : Ordered.ofInstances line.instances = .ok line := by
  with_unfolding_all rfl

theorem assigns_line : Assigns line lineTasks where
  instances := rfl
  dependencies {position task} hpresent := by
    match position, hpresent with
    | 0, hpresent => exact Option.some.inj hpresent ▸ rfl
    | 1, hpresent => exact Option.some.inj hpresent ▸ rfl
    | 2, hpresent => exact Option.some.inj hpresent ▸ rfl
  fresh := by simp [AllUnstarted, lineTasks]

theorem awaitDependencies_line : AwaitDependencies line lineTasks := by
  intro position task script hpresent hscript
  match position, hpresent with
  | 0, hpresent =>
      obtain rfl := Option.some.inj hpresent
      obtain rfl := Progress.unstarted.inj hscript
      simp
  | 1, hpresent =>
      obtain rfl := Option.some.inj hpresent
      obtain rfl := Progress.unstarted.inj hscript
      simp
  | 2, hpresent =>
      obtain rfl := Option.some.inj hpresent
      obtain rfl := Progress.unstarted.inj hscript
      refine ⟨by simp, fun name bind hmem => ?_⟩
      obtain ⟨rfl, rfl⟩ : name = "a" ∧ bind = some "first" := by simpa using hmem
      have hlast : line.DependsOn 2 1 := List.mem_cons_self
      have hfirst : line.DependsOn 1 0 := List.mem_cons_self
      exact ⟨0, _, .tail (.single hlast) hfirst, rfl, rfl⟩

def lineStatements : List Statement :=
  [.assignment "a" (.new "Station" []), .comment "b",
    .expression (.ofIdentifier ⟨"a", "Station", true⟩)]

theorem exists_run_line : ∃ code, (start .empty lineTasks).run.result = .ok code ∧
    code.statements = lineStatements :=
  ⟨_, by with_unfolding_all rfl, rfl⟩

/-- The stations of the line have their turns one after another. -/
theorem line_in_sequence :
    AwaitDependencies line lineTasks ∧ ∃ turns : List Turn, turns.map (·.task) = lineTasks ∧
      lineStatements =
        turns.flatMap fun turn => turn.routineStatements ++ turn.roleStatements := by
  obtain ⟨code, hcode, hstatements⟩ := exists_run_line
  have hnever : ∀ deeds last failure shared, Runs (start .empty lineTasks) deeds last →
      last.step ≠ .failed failure shared := by
    intro deeds last failure shared hruns hfailed
    rw [hruns.run_eq, run_eq_of_failed hfailed] at hcode
    simp at hcode
  obtain ⟨_, turns, _, hok, htasks, _, _, _, hsequence⟩ :=
    (run_in_sequence .empty ofInstances_line assigns_line awaitDependencies_line).2.2 hnever
  obtain rfl := Except.ok.inj (hcode.symm.trans hok)
  exact ⟨awaitDependencies_line, turns, htasks, hstatements.symm.trans hsequence⟩

end Schedule

end Firmware
