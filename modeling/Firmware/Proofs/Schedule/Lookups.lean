import Firmware.Proofs.Schedule.Waiting
/-!
The names that routines look up, and the names for which they wait.  A routine is marked with
the last name that it looked up, unless that name was visible then.  When it is resumed after a
suspension it keeps its mark, so that a further suspension is taken for a wait even if nothing
was looked up in between.
-/

namespace Firmware

def Step.lookup? : Step → Option String
  | .await name _ => some name
  | .act (.peek name) => some name
  | _ => none

def Pause.step : Pause → Step
  | .awaiting name bind => .await name bind
  | .yielded _ => .suspend

namespace Act

def lookups (acts : List Act) : List String :=
  acts.filterMap fun act => act.step?.bind Step.lookup?

@[simp] theorem lookups_append (acts more : List Act) :
    lookups (acts ++ more) = lookups acts ++ lookups more :=
  List.filterMap_append

theorem lookups_executed_cons (own : Local) (step : Step) (passed : List (Local × Step)) :
    lookups (((own, step) :: passed).map executed) =
      step.lookup?.toList ++ lookups (passed.map executed) := by
  rw [List.map_cons, lookups, List.filterMap_cons]
  cases h : step.lookup? <;> simp [executed, step?, h, lookups]

end Act

/-- The mark that the lookup of a name leaves: the name, unless it is visible. -/
def Shared.missing? (shared : Shared) (name : String) : Option String :=
  if Table.contains shared.published name then none else some name

theorem Shared.missing?_eq_some_iff {shared : Shared} {name other : String} :
    shared.missing? name = some other ↔
      Table.contains shared.published name = false ∧ name = other := by
  unfold missing?
  split <;> simp_all

theorem Shared.missing?_congr {shared shared' : Shared}
    (h : shared'.published = shared.published) (name : String) :
    shared'.missing? name = shared.missing? name := by
  rw [missing?, missing?, h]

@[simp] theorem Local.bindTo_mark (own : Local) (bind : Option String) (id : Identifier) :
    (own.bindTo bind id).mark = own.mark := by
  cases bind <;> rfl

theorem Action.Performs.mark {action : Action} {own own' : Local} {shared shared' : Shared}
    (h : Performs own shared action own' shared') :
    own'.mark = ((Step.act action).lookup?.map shared.missing?).getD own.mark := by
  cases h with
  | allocate => exact own.bindTo_mark _ _
  | _ => rfl

namespace Step

@[simp] theorem receive_mark (bind : Option String) (id : Identifier) (own : Local)
    (shared : Shared) : (receive bind id own shared).1.mark = none :=
  Local.bindTo_mark _ bind id

variable {own own' : Local} {shared shared' : Shared} {steps rest : List Step}
  {passed : List (Local × Step)} {name : String}

private theorem getD_map_getLast?_cons (mark : String → Option String) (first : String)
    (later : List String) (before : Option String) :
    (((first :: later).getLast?).map mark).getD before =
      ((later.getLast?).map mark).getD (mark first) := by
  rw [List.getLast?_cons]
  cases later.getLast? <;> rfl

/-- Steps that are passed over leave the mark of their last lookup. -/
theorem Passes.mark (h : Passes own shared steps passed own' shared' rest) :
    own'.mark =
      ((Act.lookups (passed.map .executed)).getLast?.map shared.missing?).getD own.mark := by
  induction h with
  | stop => rfl
  | @act own middle last shared shared' final action steps rest passed performed _ ih =>
      have hperforms := Action.perform_eq_ok_iff.mp performed
      rw [ih, funext (Shared.missing?_congr hperforms.published), hperforms.mark,
        Act.lookups_executed_cons]
      cases (Step.act action).lookup? with
      | none => rfl
      | some found => exact (getD_map_getLast?_cons ..).symm
  | @receive own last shared final looked bind id steps rest passed visible _ ih =>
      have hfound : shared.missing? looked = none := by
        simp [Shared.missing?, Table.contains, visible]
      rw [ih, receive_mark, Act.lookups_executed_cons, ← hfound]
      exact (getD_map_getLast?_cons ..).symm

/-- A routine that is marked with a name has either looked it up last, in vain, or looked up
nothing and was marked with it before. -/
theorem Passes.mark_cases (h : Passes own shared steps passed own' shared' rest)
    (hmark : own'.mark = some name) :
    ((Act.lookups (passed.map .executed)).getLast? = some name ∧
        Table.contains shared.published name = false) ∨
      (Act.lookups (passed.map .executed) = [] ∧ own.mark = some name) := by
  rw [h.mark] at hmark
  cases hlast : (Act.lookups (passed.map .executed)).getLast? with
  | none =>
      rw [hlast] at hmark
      exact .inr ⟨List.getLast?_eq_none_iff.mp hlast, hmark⟩
  | some last =>
      rw [hlast] at hmark
      obtain ⟨hhidden, rfl⟩ := Shared.missing?_eq_some_iff.mp hmark
      exact .inl ⟨rfl, hhidden⟩

/-- If all that is looked up is visible, the mark is gone, or as it was when nothing was looked
up. -/
theorem Passes.mark_of_visible (h : Passes own shared steps passed own' shared' rest)
    (hvisible : ∀ name ∈ Act.lookups (passed.map .executed),
      Table.contains shared.published name = true) :
    own'.mark = if Act.lookups (passed.map .executed) = [] then own.mark else none := by
  rw [h.mark]
  cases hlast : (Act.lookups (passed.map .executed)).getLast? with
  | none => simp [List.getLast?_eq_none_iff.mp hlast]
  | some last =>
      have hmem := List.mem_of_getLast? hlast
      rw [if_neg (List.ne_nil_of_mem hmem)]
      simp [Shared.missing?, hvisible last hmem]

/-- The step at which a routine waits is the one that its pause tells. -/
theorem Waits.step_eq {step : Step} {pause : Pause}
    (h : Waits own shared step pause own' shared') : step = pause.step := by
  cases h <;> rfl

end Step

namespace Task

/-- Where the acts of a task that waits have stopped: at the step at which it waits, and with
the name that ends its pause as the last that was looked up. -/
structure Stops (acts : List Act) (pause : Pause) : Prop where
  last : ∃ before own, acts = before ++ [.step own pause.step]
  looked : (Act.lookups acts).getLast? = some pause.name

variable {task : Task} {position : Nat} {shared shared' : Shared} {act : Act} {own : Local}
  {steps : List Step} {name : String}

/-- Where a poll begins, only a routine that goes on after a suspension is marked. -/
theorem Begins.mark (h : task.Begins position shared act own shared' steps)
    (hmarked : task.awaited? = task.pause?.map Pause.name) (hmark : own.mark = some name) :
    task.pause? = some (.yielded name) := by
  cases h with
  | start => simp [initialLocal] at hmark
  | receive => simp at hmark
  | resume hparked =>
      simp only [awaited?, pause?, hparked, hmark, Option.map_some, Pause.name,
        Option.some.injEq] at hmarked
      simp [pause?, hparked, hmarked]

/-- A routine that goes on after a suspension has kept its mark. -/
theorem Begins.mark_of_yielded (h : task.Begins position shared act own shared' steps)
    (hmarked : task.awaited? = task.pause?.map Pause.name)
    (hpause : task.pause? = some (.yielded name)) :
    own.mark = some name ∧ Table.contains shared.published name = true := by
  cases h with
  | start hfresh => simp [pause?, hfresh] at hpause
  | receive hparked => simp [pause?, hparked] at hpause
  | resume hparked hvisible =>
      simp only [pause?, hparked, Option.some.injEq, Pause.yielded.injEq] at hpause
      subst hpause
      simp only [awaited?, pause?, hparked, Option.map_some, Pause.name] at hmarked
      exact ⟨hmarked, by simp [Table.contains, hvisible]⟩

/-- No act with which a poll begins looks up a name. -/
theorem Begins.lookups (h : task.Begins position shared act own shared' steps)
    (passed : List Act) : Act.lookups (act :: passed) = Act.lookups passed := by
  cases h <;> rfl

end Task

namespace Schedule

variable {names : NameTable} {tasks : List Task} {deeds more : List Deed}
  {schedule schedule' : Schedule} {position : Nat} {task : Task} {pause : Pause}

/-- Whether every task that waits has stopped where its pause tells. -/
def AllStop (schedule : Schedule) (deeds : List Deed) : Prop :=
  ∀ (position : Nat) (task : Task) (pause : Pause), schedule.tasks[position]? = some task →
    task.pause? = some pause → Task.Stops (Deed.actsAt position deeds) pause

/-- Every poll stops where the pause tells that it leads to. -/
theorem AllStop.polls (h : schedule.AllStop deeds) (hmarked : schedule.IsMarked)
    (hpolls : Polls schedule more schedule') : schedule'.AllStop (deeds ++ more) := by
  intro other found pause hfound hpause
  cases hpolls with
  | ends =>
      rcases getElem?_advance_cases hfound with ⟨_, rfl⟩ | ⟨hne, hold⟩
      · simp [Task.pause?] at hpause
      · rw [Deed.actsAt_append, Task.deeds, Task.closing, ← List.map_append,
          Deed.actsAt_map_of_ne hne, List.append_nil]
        exact h _ _ _ hold hpause
  | @parks position task act own own' own'' shared shared' _ steps rest step pause' passed
      hpresent _ hbegins hpasses hwaits =>
      rcases getElem?_advance_cases hfound with ⟨rfl, rfl⟩ | ⟨hne, hold⟩
      · obtain rfl : pause' = pause := Option.some.inj hpause
        have hacts : Deed.actsAt other (deeds ++ task.deeds other act (passed ++ [(own', step)])) =
            Deed.actsAt other deeds ++ act :: passed.map .executed ++ [.step own' step] := by
          rw [Deed.actsAt_append, Task.deeds, Deed.actsAt_map_self, List.map_append,
            ← List.cons_append, ← List.append_assoc]
          rfl
        refine ⟨⟨_, own', by rw [hacts, hwaits.step_eq]⟩, ?_⟩
        rw [hacts, Act.lookups_append, Act.lookups_append, hbegins.lookups]
        cases hwaits with
        | await => exact List.getLast?_concat
        | suspend hmark =>
            rw [show Act.lookups [.step own' .suspend] = [] from rfl, List.append_nil]
            -- The mark is of this poll, or it was there when the routine was resumed.
            rcases hpasses.mark_cases hmark with ⟨hlast, _⟩ | ⟨hnone, hmark⟩
            · rw [List.getLast?_append, hlast]
              rfl
            · rw [hnone, List.append_nil]
              exact (h _ _ _ hpresent (hbegins.mark (hmarked _ _ hpresent) hmark)).looked
      · rw [Deed.actsAt_append, Task.deeds, Deed.actsAt_map_of_ne hne, List.append_nil]
        exact h _ _ _ hold hpause

theorem Reaches.allStop (h : Reaches (start names tasks) deeds schedule)
    (hfresh : AllUnstarted tasks) : schedule.AllStop deeds := by
  induction h with
  | refl =>
      intro position task pause hpresent hpause
      obtain ⟨script, hprogress⟩ := hfresh task (List.mem_of_getElem? hpresent)
      simp [Task.pause?, hprogress] at hpause
  | poll hreached hpolls ih => exact ih.polls (hreached.isMarked hfresh) hpolls

/-- The next poll comes to a suspension, and finds all the names that it has looked up by
then. -/
structure Suspends (schedule : Schedule) (position : Nat) (task : Task) (looked : List String)
    (rest : List Step) (own : Local) (shared : Shared) : Prop where
  next : schedule.next? = some position
  present : schedule.tasks[position]? = some task
  reached : ∃ act first before steps passed,
    task.Begins position schedule.shared act first before steps ∧
      Step.Passes first before steps passed own shared (.suspend :: rest) ∧
      looked = Act.lookups (passed.map .executed)
  visible : ∀ name ∈ looked, Table.contains schedule.shared.published name = true

variable {looked : List String} {rest : List Step} {own : Local} {shared : Shared}

/-- What becomes of a suspension depends on the mark alone. -/
theorem Suspends.step_eq (h : schedule.Suspends position task looked rest own shared) :
    schedule.step = match own.mark with
      | some name =>
          .next (schedule.advance position task (.parked (.yielded name) rest own) shared)
      | none => .failed (own.failure .idleSuspension) shared := by
  obtain ⟨act, first, before, steps, passed, hbegins, hpasses, _⟩ := h.reached
  have hpoll := Task.poll?_eq_some_iff.mpr ⟨_, _, _, _, hbegins, Step.run_eq_of_passes hpasses⟩
  simp only [step, h.next, h.present, hpoll, Step.run]
  cases own.mark <;> rfl

/-- Where all that was looked up is visible, a mark has been kept since the routine was
resumed. -/
theorem Suspends.mark_eq_some_iff (h : schedule.Suspends position task looked rest own shared)
    (hmarked : schedule.IsMarked) {name : String} :
    own.mark = some name ↔ task.pause? = some (.yielded name) ∧ looked = [] := by
  obtain ⟨act, first, before, steps, passed, hbegins, hpasses, rfl⟩ := h.reached
  have hmark := hmarked _ _ h.present
  rw [hpasses.mark_of_visible (by rw [hbegins.published]; exact h.visible)]
  split
  · next hnone =>
      simp only [hnone, and_true]
      exact ⟨hbegins.mark hmark, fun hpause => (hbegins.mark_of_yielded hmark hpause).1⟩
  · next hsome => simp [hsome]

/-- Every task that waits has stopped where its pause tells, with the name that ends the pause
as the last that it looked up.  A poll that suspends, having found all that it looked up, makes
the run fail, except where the routine was resumed after a suspension and has looked up nothing
since: it then waits once more for the name that ended its last pause. -/
theorem run_of_suspends (names : NameTable) (hfresh : AllUnstarted tasks)
    (hruns : Runs (start names tasks) deeds schedule) :
    schedule.AllStop deeds ∧
      ∀ position task looked rest own shared,
        schedule.Suspends position task looked rest own shared →
          ((∀ name, task.pause? = some (.yielded name) → looked ≠ []) →
            (start names tasks).run.result =
              .error (.ofProblem .emission ⟨.emission, some task.inst.config.path,
                "the routine suspended without awaiting a variable"⟩)) ∧
          ∀ name, task.pause? = some (.yielded name) → looked = [] →
            Table.contains schedule.shared.published name = true ∧
              schedule.step = .next
                (schedule.advance position task (.parked (.yielded name) rest own) shared) := by
  have hmarked := hruns.reaches.isMarked hfresh
  refine ⟨hruns.reaches.allStop hfresh, fun position task looked rest own shared h => ⟨?_, ?_⟩⟩
  · intro hfound
    have hmark : own.mark = none := by
      refine Option.eq_none_iff_forall_ne_some.mpr fun name hmark => ?_
      obtain ⟨hpause, hnone⟩ := (h.mark_eq_some_iff hmarked).mp hmark
      exact hfound name hpause hnone
    have hfails : schedule.step = .failed (own.failure .idleSuspension) shared := by
      rw [h.step_eq, hmark]
    obtain ⟨act, first, before, steps, passed, hbegins, hpasses, _⟩ := h.reached
    have hfollows := hpasses.follows.trans
      ((hruns.reaches.accounted hfresh).follows_of_begins h.present hbegins)
    rw [hruns.run_eq, run_eq_of_failed hfails, Local.failure, hfollows.config]
    rfl
  · intro name hpause hnone
    obtain ⟨act, first, before, steps, passed, hbegins, _⟩ := h.reached
    have hkept := hbegins.mark_of_yielded (hmarked _ _ h.present) hpause
    refine ⟨hkept.2, ?_⟩
    rw [h.step_eq, (h.mark_eq_some_iff hmarked).mpr ⟨hpause, hnone⟩]

theorem Runs.exists_of_step (h : Runs schedule deeds schedule') {final : Schedule}
    (hstep : schedule'.step = .next final) : ∃ deeds, Runs schedule deeds final := by
  obtain ⟨more, hpolls⟩ := exists_polls_of_step hstep
  exact ⟨_, h.poll hpolls hstep⟩

def outlet : Task := ⟨valve "outlet", [], true, .unstarted [.act (.declare .own [])]⟩

/-- An inlet with a routine of its own, before the outlet. -/
def inletTasks (script : List Step) : List Task :=
  [⟨valve "inlet", [], true, .unstarted script⟩, outlet]

/-- The inlet waits, marked with the name of the outlet. -/
def inletMarked (pause : Pause) (rest : List Step) : Task :=
  ⟨valve "inlet", [], true, .parked pause rest
    ⟨0, (valve "inlet").id, (valve "inlet").config, true, [], [], some "outlet"⟩⟩

/-- The inlet has waited, and the outlet has ended. -/
def inletWoken (pause : Pause) (rest : List Step) (shared : Shared) : Schedule :=
  ⟨[inletMarked pause rest, { outlet with progress := .ended }], shared⟩

theorem exists_runs_inletWoken (script : List Step) (pause : Pause) {rest : List Step}
    {events : List Entry} (hname : pause.name = "outlet")
    (hparked : (start .empty (inletTasks script)).step =
      .next ⟨[inletMarked pause rest, outlet], ⟨.empty, .empty, [], events⟩⟩) :
    ∃ deeds shared, Runs (start .empty (inletTasks script)) deeds (inletWoken pause rest shared) ∧
      Table.get? shared.published "outlet" = some (valve "outlet").id ∧
      (inletWoken pause rest shared).next? = some 0 := by
  obtain ⟨_, hruns⟩ := Runs.refl.exists_of_step hparked
  obtain ⟨deeds, hruns⟩ := hruns.exists_of_step (rfl : step _ = .next (inletWoken pause rest _))
  refine ⟨deeds, _, hruns, rfl, ?_⟩
  simp only [next?, inletWoken, List.findIdx?_cons, Task.canResume, Task.pause?, inletMarked,
    Option.any_some, hname]
  rfl

/-- The inlet looks for the outlet once, and suspends twice.  When it suspends again, it has been
resumed and has looked up nothing since, yet the run succeeds. -/
theorem run_inlet_suspending_twice :
    ∃ deeds schedule rest own shared,
      Runs (start .empty (inletTasks [.act (.peek "outlet"), .suspend, .suspend])) deeds schedule ∧
        schedule.Suspends 0 (inletMarked (.yielded "outlet") [.suspend]) [] rest own shared ∧
        (start .empty
          (inletTasks [.act (.peek "outlet"), .suspend, .suspend])).run.result.isOk = true := by
  obtain ⟨deeds, shared, hruns, hvisible, hnext⟩ := exists_runs_inletWoken
    [.act (.peek "outlet"), .suspend, .suspend] (.yielded "outlet") rfl rfl
  exact ⟨deeds, _, [], _, _, hruns,
    ⟨hnext, rfl, ⟨_, _, _, _, [], .resume rfl hvisible, .stop .., rfl⟩, by simp⟩,
    by decide +kernel⟩

/-- The inlet looks for the outlet, gives up, waits for it, and then suspends. -/
theorem run_inlet_suspending_after_wait :
    (start .empty (inletTasks
      [.act (.peek "outlet"), .await "outlet" none, .suspend])).run.result =
        .error (.ofProblem .emission ⟨.emission, some (Path.root.field "inlet"),
          "the routine suspended without awaiting a variable"⟩) := by
  have hfresh : AllUnstarted
      (inletTasks [.act (.peek "outlet"), .await "outlet" none, .suspend]) := by
    simp [AllUnstarted, inletTasks, outlet]
  obtain ⟨deeds, shared, hruns, hvisible, hnext⟩ := exists_runs_inletWoken
    [.act (.peek "outlet"), .await "outlet" none, .suspend] (.awaiting "outlet" none) rfl rfl
  refine ((run_of_suspends .empty hfresh hruns).2 0
    (inletMarked (.awaiting "outlet" none) [.suspend]) [] [] _ _
    ⟨hnext, rfl, ⟨_, _, _, _, [], .receive rfl hvisible, .stop .., rfl⟩, by simp⟩).1 ?_
  simp [Task.pause?, inletMarked]

end Schedule

end Firmware
