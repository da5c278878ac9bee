import Firmware.Proofs.Schedule.Answers
/-!
Visible variables.  At every moment of a run, also while a routine is polled or fails, the
variables that routines can see are those of the instances whose routines have ended and
those that these routines have declared.  What is visible stays as it is, so that all who
wait for a name get the same variable, whoever waits and whenever.
-/

namespace Firmware

def Act.declared? : Act → Option Identifier
  | .step own (.act (.declare subject _)) => (own.identifier subject).toOption
  | _ => none

/-- The variables that the acts for the instance at a position declare. -/
def Deed.declaredAt (position : Nat) (deeds : List Deed) : List Identifier :=
  (actsAt position deeds).filterMap Act.declared?

variable {own own' : Local} {shared shared' : Shared} {name : String} {id : Identifier}
  {steps rest : List Step} {passed : List (Local × Step)}

theorem Deed.declaredAt_append_self (position : Nat) (inst : Instance) (deeds : List Deed)
    (acts : List Act) :
    declaredAt position (deeds ++ acts.map (Deed.mk position inst)) =
      declaredAt position deeds ++ acts.filterMap Act.declared? := by
  rw [declaredAt, actsAt_append, actsAt_map_self, List.filterMap_append]
  rfl

theorem Deed.declaredAt_append_of_ne {position other : Nat} (hne : position ≠ other)
    (inst : Instance) (deeds : List Deed) (acts : List Act) :
    declaredAt other (deeds ++ acts.map (Deed.mk position inst)) = declaredAt other deeds := by
  rw [declaredAt, actsAt_append, actsAt_map_of_ne hne, List.append_nil]
  rfl

theorem Action.Performs.declared {action : Action}
    (h : action.Performs own shared own' shared') :
    own'.declared = own.declared ++ (Act.step own (.act action)).declared?.toList := by
  cases h with
  | declare found =>
      rw [Act.declared?, found]
      rfl
  | allocate base type bind => cases bind <;> exact (List.append_nil _).symm
  | _ => exact (List.append_nil _).symm

namespace Step

theorem declared_receive (bind : Option String) (id : Identifier) (own : Local)
    (shared : Shared) : (receive bind id own shared).1.declared = own.declared := by
  cases bind <;> rfl

/-- A routine has declared what its steps so far declare. -/
theorem Passes.declared (h : Passes own shared steps passed own' shared' rest) :
    own'.declared = own.declared ++ (passed.map Act.executed).filterMap Act.declared? := by
  induction h with
  | stop own => exact (List.append_nil _).symm
  | @act own _ _ _ _ _ action _ _ _ performed _ ih =>
      have hcons : Act.executed (own, .act action) = .step own (.act action) := rfl
      rw [ih, (Action.perform_eq_ok_iff.mp performed).declared, List.append_assoc, List.map_cons,
        List.filterMap_cons, hcons]
      cases (Act.step own (.act action)).declared? <;> rfl
  | receive _ _ ih =>
      rw [ih, declared_receive]
      rfl

theorem Waits.declared {step : Step} {pause : Pause}
    (h : Waits own shared step pause own' shared') :
    own'.declared = own.declared ∧ (Act.step own step).declared? = none := by
  cases h <;> exact ⟨rfl, rfl⟩

end Step

namespace Schedule

variable {schedule schedule' first : Schedule} {tasks : List Task} {deeds more : List Deed}
  {position : Nat} {task : Task} {progress : Progress} {act : Act} {names : NameTable}

/-- The moments of a run, with what is shared then and the schedule as of the last poll
that is over: after a poll, within one, and when a routine has just ended. -/
inductive Sees (first : Schedule) : List Deed → Schedule → Shared → Prop
  | between {deeds : List Deed} {schedule : Schedule} (reached : Reaches first deeds schedule) :
      Sees first deeds schedule schedule.shared
  | within {deeds : List Deed} {schedule : Schedule} {position : Nat} {task : Task} {act : Act}
      {own own' : Local} {shared shared' : Shared} {steps rest : List Step}
      {passed : List (Local × Step)} (reached : Reaches first deeds schedule)
      (present : schedule.tasks[position]? = some task) (allowed : schedule.CanPoll task)
      (begins : task.Begins position schedule.shared act own shared steps)
      (passes : Step.Passes own shared steps passed own' shared' rest) :
      Sees first (deeds ++ task.deeds position act passed) schedule shared'
  | closing {deeds : List Deed} {schedule : Schedule} {position : Nat} {task : Task} {act : Act}
      {own own' : Local} {shared shared' : Shared} {steps : List Step}
      {passed : List (Local × Step)} (reached : Reaches first deeds schedule)
      (present : schedule.tasks[position]? = some task) (allowed : schedule.CanPoll task)
      (begins : task.Begins position schedule.shared act own shared steps)
      (passes : Step.Passes own shared steps passed own' shared' []) :
      Sees first (deeds ++ task.deeds position act passed) schedule (own'.record .ended shared')

/-- Whether a variable is that of an instance whose routine has ended, or was declared by
such a routine. -/
def Concluded (schedule : Schedule) (deeds : List Deed) (id : Identifier) : Prop :=
  ∃ position task, schedule.tasks[position]? = some task ∧ task.progress = .ended ∧
    id ∈ Deed.declaredAt position deeds ++ [task.inst.id]

/-- While a task is polled, nothing that it declares counts. -/
theorem concluded_append_iff (acts : List Act)
    (hpresent : schedule.tasks[position]? = some task) (hallowed : schedule.CanPoll task) :
    schedule.Concluded (deeds ++ acts.map (Deed.mk position task.inst)) id ↔
      schedule.Concluded deeds id := by
  have hsame : ∀ {other : Nat} {found : Task}, schedule.tasks[other]? = some found →
      found.progress = .ended →
        Deed.declaredAt other (deeds ++ acts.map (Deed.mk position task.inst)) =
          Deed.declaredAt other deeds := by
    intro other found hfound hended
    apply Deed.declaredAt_append_of_ne
    rintro rfl
    obtain rfl := Option.some.inj (hpresent.symm.trans hfound)
    exact hallowed.progress_ne hended
  constructor
  · rintro ⟨other, found, hfound, hended, hmem⟩
    rw [hsame hfound hended] at hmem
    exact ⟨other, found, hfound, hended, hmem⟩
  · rintro ⟨other, found, hfound, hended, hmem⟩
    rw [← hsame hfound hended] at hmem
    exact ⟨other, found, hfound, hended, hmem⟩

/-- Once a task has moved on, its variables count if that was its end. -/
theorem concluded_advance_iff {acts : List Act} {final : Shared}
    (hpresent : schedule.tasks[position]? = some task) (hallowed : schedule.CanPoll task) :
    (schedule.advance position task progress final).Concluded
        (deeds ++ acts.map (Deed.mk position task.inst)) id ↔
      schedule.Concluded deeds id ∨ progress = .ended ∧
        id ∈ Deed.declaredAt position deeds ++ acts.filterMap Act.declared? ++ [task.inst.id] := by
  rw [← concluded_append_iff acts hpresent hallowed,
    ← Deed.declaredAt_append_self position task.inst]
  constructor
  · rintro ⟨other, found, hfound, hended, hmem⟩
    rcases getElem?_advance_cases hfound with ⟨rfl, rfl⟩ | ⟨_, hbefore⟩
    · exact .inr ⟨hended, hmem⟩
    · exact .inl ⟨other, found, hbefore, hended, hmem⟩
  · rintro (⟨other, found, hfound, hended, hmem⟩ | ⟨hended, hmem⟩)
    · refine ⟨other, found, ?_, hended, hmem⟩
      rw [getElem?_advance_of_ne, hfound]
      rintro rfl
      obtain rfl := Option.some.inj (hpresent.symm.trans hfound)
      exact hallowed.progress_ne hended
    · exact ⟨position, _, getElem?_advance_self hpresent, hended, hmem⟩

/-- What holds of the variables of a run: those are visible, each under its name, that
belong to routines that have ended, and a routine that waits keeps what it has declared. -/
structure Visible (deeds : List Deed) (schedule : Schedule) : Prop where
  named : schedule.shared.IsNamed
  declared : ∀ {position : Nat} {task : Task} {pause : Pause} {rest : List Step} {own : Local},
    schedule.tasks[position]? = some task → task.progress = .parked pause rest own →
      own.declared = Deed.declaredAt position deeds
  shown : ∀ {id : Identifier}, schedule.Concluded deeds id →
    Table.contains schedule.shared.published id.name = true
  origin : ∀ {name : String} {id : Identifier},
    Table.get? schedule.shared.published name = some id → schedule.Concluded deeds id

theorem visible_start (names : NameTable) (hfresh : AllUnstarted tasks) :
    Visible [] (start names tasks) where
  named := nofun
  declared hpresent hparked := by
    obtain ⟨script, hprogress⟩ := hfresh _ (List.mem_of_getElem? hpresent)
    rw [hprogress] at hparked
    contradiction
  shown := by
    rintro id ⟨position, task, hpresent, hended, _⟩
    obtain ⟨script, hprogress⟩ := hfresh _ (List.mem_of_getElem? hpresent)
    rw [hprogress] at hended
    contradiction
  origin := nofun

/-- Where a poll begins, the routine has declared what its acts so far declare. -/
theorem Visible.declared_of_begins (h : Visible deeds schedule)
    (haccounted : Accounted tasks deeds schedule)
    (hpresent : schedule.tasks[position]? = some task)
    (hbegins : task.Begins position schedule.shared act own shared steps) :
    act.declared? = none ∧ own.declared = Deed.declaredAt position deeds := by
  cases hbegins with
  | start hfresh =>
      obtain ⟨_, _, haccounts⟩ := haccounted.accounts hpresent
      rw [Deed.declaredAt, haccounts.acts_eq_nil hfresh]
      exact ⟨rfl, rfl⟩
  | receive hparked =>
      rw [Step.declared_receive]
      exact ⟨rfl, h.declared hpresent hparked⟩
  | resume hparked => exact ⟨rfl, h.declared hpresent hparked⟩

/-- A task that moves on keeps what holds of variables, if it does itself. -/
theorem Visible.advance {acts : List Act} {final : Shared} (h : Visible deeds schedule)
    (hpresent : schedule.tasks[position]? = some task) (hallowed : schedule.CanPoll task)
    (hnamed : final.IsNamed)
    (hdeclared : ∀ pause rest last, progress = .parked pause rest last →
      last.declared = Deed.declaredAt position deeds ++ acts.filterMap Act.declared?)
    (hshown : ∀ id, (schedule.Concluded deeds id ∨ progress = .ended ∧
      id ∈ Deed.declaredAt position deeds ++ acts.filterMap Act.declared? ++ [task.inst.id]) →
        Table.contains final.published id.name = true)
    (horigin : ∀ name id, Table.get? final.published name = some id →
      schedule.Concluded deeds id ∨ progress = .ended ∧
        id ∈ Deed.declaredAt position deeds ++ acts.filterMap Act.declared? ++ [task.inst.id]) :
    Visible (deeds ++ acts.map (Deed.mk position task.inst))
      (schedule.advance position task progress final) where
  named := hnamed
  declared hfound hparked := by
    rcases getElem?_advance_cases hfound with ⟨rfl, rfl⟩ | ⟨hne, hbefore⟩
    · rw [Deed.declaredAt_append_self]
      exact hdeclared _ _ _ hparked
    · rw [Deed.declaredAt_append_of_ne hne]
      exact h.declared hbefore hparked
  shown hconcluded := hshown _ ((concluded_advance_iff hpresent hallowed).mp hconcluded)
  origin hvisible := (concluded_advance_iff hpresent hallowed).mpr (horigin _ _ hvisible)

theorem filterMap_declared?_closing (capabilities : List Capability) :
    (Act.ended :: capabilities.map Act.role).filterMap Act.declared? = [] := by
  simp [Act.declared?]

/-- Every poll keeps what holds of the variables. -/
theorem Visible.polls (h : Visible deeds schedule) (haccounted : Accounted tasks deeds schedule)
    (hpolls : Polls schedule more schedule') : Visible (deeds ++ more) schedule' := by
  cases hpolls with
  | @ends position task act own own' before after final _ passed hpresent hallowed hbegins
      hpasses hconcluded =>
      obtain ⟨hact, hown⟩ := h.declared_of_begins haccounted hpresent hbegins
      have hsame : after.published = schedule.shared.published :=
        hpasses.published.trans hbegins.published
      have hdeclared : Deed.declaredAt position deeds ++
          (act :: passed.map Act.executed ++
            Act.ended :: task.inst.declaration.capabilities.map Act.role).filterMap
              Act.declared? = own'.declared := by
        rw [List.filterMap_append, filterMap_declared?_closing, List.append_nil,
          List.filterMap_cons_none hact, ← hown, ← hpasses.declared]
      obtain ⟨code, _, rfl⟩ := conclude_eq_ok_iff.mp hconcluded
      have hnamed : Shared.IsNamed { own'.record .ended after with code } := h.named.congr hsame
      rw [Task.deeds, Task.closing, ← List.map_append]
      apply h.advance hpresent hallowed (hnamed.foldl_publish _)
      · intro _ _ _ hparked
        contradiction
      · rw [hdeclared]
        intro id hconcluded
        rw [Shared.contains_foldl_publish]
        rcases hconcluded with hbefore | ⟨_, hmem⟩
        · apply Or.inl
          rw [Local.record_published, hsame]
          exact h.shown hbefore
        · exact .inr (List.mem_map_of_mem hmem)
      · rw [hdeclared]
        intro name id hvisible
        rcases Shared.get?_foldl_publish_cases hvisible with hbefore | hmem
        · rw [Local.record_published, hsame] at hbefore
          exact .inl (h.origin hbefore)
        · exact .inr ⟨rfl, hmem⟩
  | @parks position task act own own' _ before after _ _ rest step _ passed hpresent hallowed
      hbegins hpasses hwaits =>
      obtain ⟨hact, hown⟩ := h.declared_of_begins haccounted hpresent hbegins
      obtain ⟨hkept, hstep⟩ := hwaits.declared
      have hsame := hwaits.published.trans (hpasses.published.trans hbegins.published)
      apply h.advance hpresent hallowed (h.named.congr hsame)
      · intro _ _ _ hparked
        obtain ⟨_, _, rfl⟩ := Progress.parked.inj hparked
        have hlast : ([(own', step)].map Act.executed).filterMap Act.declared? = [] :=
          List.filterMap_cons_none hstep
        rw [hkept, hpasses.declared, hown, List.filterMap_cons_none hact, List.map_append,
          List.filterMap_append, hlast, List.append_nil]
      · rintro id (hbefore | ⟨hended, _⟩)
        · rw [hsame]
          exact h.shown hbefore
        · contradiction
      · intro name id hvisible
        rw [hsame] at hvisible
        exact .inl (h.origin hvisible)

theorem Reaches.visible (h : Reaches (start names tasks) deeds schedule)
    (hfresh : AllUnstarted tasks) : Visible deeds schedule := by
  induction h with
  | refl => exact visible_start names hfresh
  | poll hreaches hpolls ih => exact ih.polls (hreaches.accounted hfresh) hpolls

/-- What is visible stays so, whatever is polled. -/
theorem Polls.get?_published (h : Polls schedule more schedule')
    (hvisible : Table.get? schedule.shared.published name = some id) :
    Table.get? schedule'.shared.published name = some id := by
  cases h with
  | ends _ _ hbegins hpasses hconcluded =>
      apply get?_conclude hconcluded
      rw [Local.record_published, hpasses.published, hbegins.published, hvisible]
  | parks _ _ hbegins hpasses hwaits =>
      rw [← hvisible, ← hbegins.published, ← hpasses.published, ← hwaits.published]
      rfl

theorem Reaches.get?_published (h : Reaches schedule more schedule')
    (hvisible : Table.get? schedule.shared.published name = some id) :
    Table.get? schedule'.shared.published name = some id := by
  induction h with
  | refl => exact hvisible
  | poll _ hpolls ih => exact hpolls.get?_published ih

/-- At every moment that is visible which became so with the last poll that is over. -/
theorem Sees.of_reaches (h : Sees first deeds schedule shared) :
    ∃ before, Reaches first before schedule ∧ shared.published = schedule.shared.published ∧
      ∀ id, schedule.Concluded deeds id ↔ schedule.Concluded before id := by
  cases h with
  | between hreaches => exact ⟨deeds, hreaches, rfl, fun _ => Iff.rfl⟩
  | within hreaches hpresent hallowed hbegins hpasses =>
      refine ⟨_, hreaches, hpasses.published.trans hbegins.published, fun id => ?_⟩
      exact concluded_append_iff _ hpresent hallowed
  | closing hreaches hpresent hallowed hbegins hpasses =>
      refine ⟨_, hreaches, hpasses.published.trans hbegins.published, fun id => ?_⟩
      exact concluded_append_iff _ hpresent hallowed

theorem Sees.isAnswered (h : Sees (start names tasks) deeds schedule shared)
    (hfresh : AllUnstarted tasks) : shared.IsAnswered := by
  cases h with
  | between hreaches => exact (hreaches.answered hfresh).answered
  | within hreaches hpresent _ hbegins hpasses =>
      exact (hreaches.answered hfresh).isAnswered_of_passes hpresent hbegins hpasses
  | closing hreaches hpresent _ hbegins hpasses =>
      apply Local.isAnswered_record _ rfl
      exact (hreaches.answered hfresh).isAnswered_of_passes hpresent hbegins hpasses

/-- The trace of a run is what has been recorded at its last moment, also if it fails. -/
theorem exists_sees_run (schedule : Schedule) :
    ∃ deeds last shared, Sees schedule deeds last shared ∧ schedule.run.trace = shared.trace := by
  obtain ⟨deeds, last, hruns, ⟨_, hrun⟩ | ⟨failure, shared, hfails, hrun⟩⟩ := exists_runs schedule
  · exact ⟨deeds, last, _, .between hruns.reaches, by rw [hrun]⟩
  · rcases last.step_cases with ⟨hsettled, _⟩ | ⟨position, task, poll, hpresent, hallowed,
      hpoll, hstep⟩
    · rw [hsettled] at hfails
      contradiction
    · obtain ⟨act, own, before, steps, hbegins, hpolled⟩ := Task.poll?_eq_some_iff.mp hpoll
      rw [hstep] at hfails
      cases poll with
      | paused pause rest own' after => contradiction
      | failed fault after =>
          obtain ⟨_, rfl⟩ := Move.failed.inj hfails
          obtain ⟨passed, own', rest, hpasses⟩ := Step.exists_passes_of_failed hpolled
          exact ⟨_, last, after, .within hruns.reaches hpresent hallowed hbegins hpasses,
            by rw [hrun]⟩
      | ended own' after =>
          obtain ⟨passed, middle, hpasses, rfl⟩ := Step.run_eq_ended_iff.mp hpolled
          refine ⟨_, last, _, .closing hruns.reaches hpresent hallowed hbegins hpasses, ?_⟩
          cases hconcluded : conclude task own' (own'.record .ended middle) with
          | ok final => simp [absorb, hconcluded] at hfails
          | error fault =>
              simp only [absorb, hconcluded, Move.failed.injEq] at hfails
              rw [hrun, ← hfails.2]

/-- Variables become visible when the routine that declares them ends, and stay so.  At
every moment of a run, each visible variable is found under its own name, and the visible
names are exactly those of the instances whose routines have ended and of the variables
that these have declared.  At every later moment it is the same variable.  Whoever went on
with a variable got the one that is visible under the name it asked for, so that in a
whole run all who asked for one name got the same. -/
theorem visible_once_ended (hfresh : AllUnstarted tasks)
    (h : Sees (start names tasks) deeds schedule shared) :
    shared.IsNamed ∧
    (∀ name, Table.contains shared.published name = true ↔
      ∃ id, schedule.Concluded deeds id ∧ id.name = name) ∧
    (∀ name id, Table.get? shared.published name = some id → schedule.Concluded deeds id) ∧
    (∀ more later shared', Sees schedule more later shared' → ∀ name id,
      Table.get? shared.published name = some id →
        Table.get? shared'.published name = some id) ∧
    shared.IsAnswered ∧
    ∀ asked id, (asked, id) ∈ Entry.answers (start names tasks).run.trace.reverse →
      asked.isSome = true ∧
        ∀ id', (asked, id') ∈ Entry.answers (start names tasks).run.trace.reverse → id' = id := by
  obtain ⟨before, hreaches, hsame, hconcluded⟩ := h.of_reaches
  have hvisible := hreaches.visible hfresh
  have hnamed : shared.IsNamed := hvisible.named.congr hsame
  have horigin : ∀ name id, Table.get? shared.published name = some id →
      schedule.Concluded deeds id := by
    intro name id hfound
    rw [hsame] at hfound
    exact (hconcluded id).mpr (hvisible.origin hfound)
  refine ⟨hnamed, ?_, horigin, ?_, h.isAnswered hfresh, ?_⟩
  · intro name
    constructor
    · intro hcontains
      obtain ⟨id, hfound⟩ := Option.isSome_iff_exists.mp hcontains
      exact ⟨id, horigin name id hfound, hnamed name id hfound⟩
    · rintro ⟨id, hid, rfl⟩
      rw [hsame]
      exact hvisible.shown ((hconcluded id).mp hid)
  · intro more later shared' hlater name id hfound
    obtain ⟨_, hreaches', hsame', _⟩ := hlater.of_reaches
    rw [hsame']
    apply hreaches'.get?_published
    rw [← hsame, hfound]
  · intro asked id hmem
    obtain ⟨_, _, last, hlast, htrace⟩ := exists_sees_run (start names tasks)
    have hanswered := hlast.isAnswered hfresh
    rw [htrace, Shared.trace, List.reverse_reverse] at hmem ⊢
    obtain ⟨name, rfl, hfound⟩ := hanswered asked id hmem
    refine ⟨rfl, ?_⟩
    intro id' hmem'
    obtain ⟨_, heq, hfound'⟩ := hanswered _ id' hmem'
    obtain rfl := Option.some.inj heq
    exact Option.some.inj (hfound'.symm.trans hfound)

def gauge (name : String) : Instance where
  index := 0
  declaration := .ofSchema "gauge" (.empty "gauge")
  config := .empty (Path.root.field name)
  id := ⟨name, "Gauge", true⟩

/-- Two gauges declare a flow.  The first to do so waits for the other, and two more wait
for the flow. -/
def gaugeTasks : List Task :=
  [⟨gauge "low", [], true, .unstarted [.await "flow" none]⟩,
    ⟨gauge "inlet", [], true,
      .unstarted [.act (.declare (.given ⟨"flow", "Tank", true⟩) []), .await "outlet" none]⟩,
    ⟨gauge "outlet", [], true,
      .unstarted [.act (.declare (.given ⟨"flow", "Pipe", true⟩) [])]⟩,
    ⟨gauge "high", [], true, .unstarted [.await "flow" none]⟩]

/-- All gauges see the flow of the outlet, whose routine ends first. -/
theorem gauges_see_one_flow :
    AllUnstarted gaugeTasks ∧ ∃ deeds last shared,
      Sees (start .empty gaugeTasks) deeds last shared ∧
        (start .empty gaugeTasks).run.trace = shared.trace ∧
        Entry.answers shared.events = [(some "flow", ⟨"flow", "Pipe", true⟩),
          (some "outlet", ⟨"outlet", "Gauge", true⟩), (some "flow", ⟨"flow", "Pipe", true⟩)] ∧
        Table.get? shared.published "flow" = some ⟨"flow", "Pipe", true⟩ ∧
        last.Concluded deeds ⟨"flow", "Pipe", true⟩ := by
  have hfresh : AllUnstarted gaugeTasks := by simp [AllUnstarted, gaugeTasks]
  have hanswers : Entry.answers (start .empty gaugeTasks).run.trace.reverse =
      [(some "flow", ⟨"flow", "Pipe", true⟩), (some "outlet", ⟨"outlet", "Gauge", true⟩),
        (some "flow", ⟨"flow", "Pipe", true⟩)] := by
    decide +kernel
  obtain ⟨deeds, last, shared, hsees, htrace⟩ := exists_sees_run (start .empty gaugeTasks)
  rw [htrace, Shared.trace, List.reverse_reverse] at hanswers
  obtain ⟨_, _, horigin, _, hanswered, _⟩ := visible_once_ended hfresh hsees
  obtain ⟨name, heq, hflow⟩ :=
    hanswered (some "flow") ⟨"flow", "Pipe", true⟩ (by rw [hanswers]; exact List.mem_cons_self)
  obtain rfl := Option.some.inj heq
  exact ⟨hfresh, deeds, last, shared, hsees, htrace, hanswers, hflow, horigin _ _ hflow⟩

end Schedule

end Firmware
