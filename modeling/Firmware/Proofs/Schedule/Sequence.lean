import Firmware.Proofs.Schedule.Account
import Mathlib.Data.List.Pairwise
/-!
The order of starts and ends.  The trace of a run records the start and the end of
every routine where they happen, and no routine has started before one that it
depends on has ended, whatever the order in which tasks are polled.
-/

namespace Firmware

structure Mark where
  task : Nat
  id : String
  starts : Bool
deriving DecidableEq, Repr

/-- Whether an event is the start of a routine or its end, if it is one of them. -/
def Event.starts? : Event → Option Bool
  | .started => some true
  | .ended => some false
  | _ => none

def Entry.mark? (entry : Entry) : Option Mark :=
  entry.event.starts?.map (Mark.mk entry.task entry.id)

def Entry.isStartOf (name : String) (entry : Entry) : Bool :=
  entry.event == .started && entry.id == name

def Entry.isEndOf (name : String) (entry : Entry) : Bool :=
  entry.event == .ended && entry.id == name

def Act.starts? : Act → Option Bool
  | .started => some true
  | .ended => some false
  | _ => none

def Deed.mark? (deed : Deed) : Option Mark :=
  deed.act.starts?.map (Mark.mk deed.task deed.inst.id.name)

/-- The starts and the ends that have been recorded so far. -/
def Shared.marks (shared : Shared) : List Mark := shared.trace.filterMap Entry.mark?

theorem Local.marks_record (own : Local) (event : Event) (shared : Shared) :
    (own.record event shared).marks =
      shared.marks ++ (event.starts?.map (Mark.mk own.task own.id.name)).toList := by
  cases event <;> simp [Shared.marks, Shared.trace, record, Entry.mark?, Event.starts?]

theorem Action.Performs.marks {action : Action} {own own' : Local} {shared shared' : Shared}
    (h : action.Performs own shared own' shared') : shared'.marks = shared.marks := by
  cases h with
  | peek => simp [Local.marks_record, Event.starts?]
  | register =>
      rw [Local.marks_record]
      simp [Event.starts?, Shared.marks, Shared.trace]
  | _ => rfl

namespace Step

variable {own own' : Local} {shared shared' : Shared} {steps rest : List Step}
  {passed : List (Local × Step)}

theorem marks_receive (bind : Option String) (id : Identifier) (own : Local)
    (shared : Shared) : (receive bind id own shared).2.marks = shared.marks := by
  simp [receive, Local.marks_record, Event.starts?]

/-- Steps record neither starts nor ends. -/
theorem Passes.marks (h : Passes own shared steps passed own' shared' rest) :
    shared'.marks = shared.marks := by
  induction h with
  | stop => rfl
  | act performed _ ih => exact ih.trans (Action.perform_eq_ok_iff.mp performed).marks
  | receive _ _ ih =>
      rw [ih, marks_receive, Local.marks_record]
      simp [Event.starts?]

theorem Waits.marks {step : Step} {pause : Pause}
    (h : Waits own shared step pause own' shared') : shared'.marks = shared.marks := by
  cases h with
  | await => simp [Local.marks_record, Event.starts?]
  | suspend => rfl

end Step

theorem Task.Begins.marks {task : Task} {position : Nat} {shared shared' : Shared} {act : Act}
    {own : Local} {steps : List Step}
    (h : task.Begins position shared act own shared' steps) :
    shared'.marks = shared.marks
      ++ (act.starts?.map (Mark.mk position task.inst.id.name)).toList := by
  cases h with
  | start => exact Local.marks_record ..
  | receive => simp [Step.marks_receive, Act.starts?]
  | resume => simp [Local.marks_record, Event.starts?, Act.starts?]

namespace Schedule

variable {names : NameTable} {tasks : List Task} {deeds : List Deed}
  {schedule schedule' : Schedule}

theorem marks_conclude {task : Task} {own : Local} {shared final : Shared}
    (h : conclude task own shared = .ok final) : final.marks = shared.marks := by
  obtain ⟨code, _, rfl⟩ := conclude_eq_ok_iff.mp h
  simp only [Shared.marks, Shared.trace, Shared.foldl_publish_events]

theorem filterMap_mark?_executed (position : Nat) (inst : Instance)
    (passed : List (Local × Step)) :
    ((passed.map Act.executed).map (Deed.mk position inst)).filterMap Deed.mark? = [] := by
  simp [List.filterMap_eq_nil_iff, Act.executed, Deed.mark?, Act.starts?]

theorem filterMap_mark?_deeds (task : Task) (position : Nat) (act : Act)
    (passed : List (Local × Step)) :
    (task.deeds position act passed).filterMap Deed.mark? =
      (act.starts?.map (Mark.mk position task.inst.id.name)).toList := by
  rw [Task.deeds, List.map_cons, ← List.singleton_append, List.filterMap_append,
    filterMap_mark?_executed, List.append_nil]
  cases act <;> rfl

theorem filterMap_mark?_closing (task : Task) (position : Nat) :
    (task.closing position).filterMap Deed.mark? =
      [⟨position, task.inst.id.name, false⟩] := by
  rw [Task.closing, List.map_cons, ← List.singleton_append, List.filterMap_append]
  simp [List.filterMap_eq_nil_iff, Deed.mark?, Act.starts?]

/-- A poll records the starts and the ends that are among its deeds. -/
theorem Accounted.marks_polls {more : List Deed} (h : Accounted tasks deeds schedule)
    (hpolls : Polls schedule more schedule') :
    schedule'.shared.marks = schedule.shared.marks ++ more.filterMap Deed.mark? := by
  cases hpolls with
  | ends hpresent _ hbegins hpasses hconcluded =>
      have hfollows := hpasses.follows.trans (h.follows_of_begins hpresent hbegins)
      rw [List.filterMap_append, filterMap_mark?_deeds, filterMap_mark?_closing,
        ← List.append_assoc, ← hbegins.marks, ← hpasses.marks]
      refine (marks_conclude hconcluded).trans ((Local.marks_record ..).trans ?_)
      rw [hfollows.task, hfollows.id]
      rfl
  | parks _ _ hbegins hpasses hwaits =>
      rw [filterMap_mark?_deeds, ← hbegins.marks, ← hpasses.marks]
      exact hwaits.marks

/-- The trace records the starts and the ends in the order in which they happen. -/
theorem Reaches.marks_eq (h : Reaches (start names tasks) deeds schedule)
    (hfresh : AllUnstarted tasks) :
    schedule.shared.marks = deeds.filterMap Deed.mark? := by
  induction h with
  | refl => rfl
  | poll hreaches hpolls ih =>
      rw [(hreaches.accounted hfresh).marks_polls hpolls, ih, List.filterMap_append]

theorem Accounted.started_of_mem {deed : Deed} {task : Task}
    (h : Accounted tasks deeds schedule) (hmem : deed ∈ deeds)
    (hpresent : schedule.tasks[deed.task]? = some task) (script : List Step) :
    task.progress ≠ .unstarted script := by
  intro hunstarted
  obtain ⟨_, _, haccounts⟩ := h.accounts hpresent
  have hact : deed.act ∈ Deed.actsAt deed.task deeds :=
    List.mem_filterMap.mpr ⟨deed, hmem, by simp⟩
  generalize Deed.actsAt deed.task deeds = acts at haccounts hact
  cases haccounts with
  | unstarted => simp at hact
  | parked hprogress => simp [hunstarted] at hprogress
  | ended hprogress => simp [hunstarted] at hprogress

/-- Of two marks, the first is not the start of a routine that depends on one whose
end is the second. -/
def InOrder (tasks : List Task) (first second : Mark) : Prop :=
  first.starts = true → second.starts = false →
    ∀ task, tasks[first.task]? = some task → second.task ∉ task.dependencies

theorem Polls.marks_task {more : List Deed} (h : Polls schedule more schedule') :
    ∃ position task, schedule.tasks[position]? = some task ∧ schedule.CanPoll task ∧
      ∀ mark ∈ more.filterMap Deed.mark?, mark.task = position := by
  have hdeeds : ∀ (task : Task) (position : Nat) (act : Act) (passed : List (Local × Step)),
      ∀ mark ∈ (task.deeds position act passed).filterMap Deed.mark?, mark.task = position := by
    intro task position act passed mark hmark
    rw [filterMap_mark?_deeds] at hmark
    obtain ⟨_, _, rfl⟩ := Option.map_eq_some_iff.mp (Option.mem_toList.mp hmark)
    rfl
  cases h with
  | @ends position task _ _ _ _ _ _ _ _ hpresent hallowed _ _ _ =>
      refine ⟨position, task, hpresent, hallowed, ?_⟩
      intro mark hmark
      rw [List.filterMap_append, filterMap_mark?_closing] at hmark
      rcases List.mem_append.mp hmark with hfirst | hlast
      · exact hdeeds _ _ _ _ mark hfirst
      · rw [List.mem_singleton.mp hlast]
  | @parks position task _ _ _ _ _ _ _ _ _ _ _ _ hpresent hallowed _ _ _ =>
      exact ⟨position, task, hpresent, hallowed, hdeeds _ _ _ _⟩

/-- All that a started task depends on has ended. -/
theorem Accounted.hasEnded_of_mark {mark : Mark} {task : Task}
    (h : Accounted tasks deeds schedule) (hmark : mark ∈ deeds.filterMap Deed.mark?)
    (horigin : tasks[mark.task]? = some task) :
    ∀ other ∈ task.dependencies, schedule.hasEnded other = true := by
  obtain ⟨deed, hdeed, hact⟩ := List.mem_filterMap.mp hmark
  obtain ⟨_, _, rfl⟩ := Option.map_eq_some_iff.mp hact
  obtain ⟨current, hpresent, _⟩ := h.inst deed hdeed
  obtain ⟨_, hsame, _⟩ := h.accounts hpresent
  obtain rfl := Option.some.inj (hsame.symm.trans horigin)
  have hended : ∀ other ∈ current.dependencies, schedule.hasEnded other = true :=
    h.dependencies hpresent (h.started_of_mem hdeed hpresent)
  exact hended

/-- No routine starts before one that it depends on has ended. -/
theorem Reaches.inOrder (h : Reaches (start names tasks) deeds schedule)
    (hfresh : AllUnstarted tasks) : (deeds.filterMap Deed.mark?).Pairwise (InOrder tasks) := by
  induction h with
  | refl => exact .nil
  | @poll deeds more middle final hreaches hpolls ih =>
      have haccounted := hreaches.accounted hfresh
      obtain ⟨position, current, hpresent, hallowed, hmarks⟩ := hpolls.marks_task
      obtain ⟨_, horigin, _⟩ := haccounted.accounts hpresent
      -- The polled task has not ended, so no task that was started depends on it.
      have hrunning := hallowed.hasEnded_ne hpresent
      rw [List.filterMap_append, List.pairwise_append]
      refine ⟨ih, List.pairwise_of_forall_mem_list ?_, ?_⟩
      · intro first hfirst second hsecond _ _ task htask hmem
        rw [hmarks first hfirst] at htask
        obtain rfl := Option.some.inj (horigin.symm.trans htask)
        rw [hmarks second hsecond] at hmem
        exact hrunning (haccounted.hasEnded_dependencies hpresent hallowed position hmem)
      · intro first hfirst second hsecond _ _ task htask hmem
        rw [hmarks second hsecond] at hmem
        exact hrunning (haccounted.hasEnded_of_mark hfirst htask position hmem)

/-- Of a routine that has ended, exactly one start and one end were recorded. -/
theorem filterMap_starts?_of_ended {task : Task} {script : List Step} {acts : List Act}
    (h : task.Accounts script acts) (hended : task.progress = .ended) :
    acts.filterMap Act.starts? = [true, false] := by
  cases h with
  | unstarted hprogress => simp [hended] at hprogress
  | parked hprogress => simp [hended] at hprogress
  | @ended body _ hinner _ =>
      have hbody : body.filterMap Act.starts? = [] := by
        rw [List.filterMap_eq_nil_iff]
        intro act hact
        have := hinner act hact
        cases act <;> simp_all [Act.isInner, Act.starts?]
      simp [hbody, Act.starts?, List.filterMap_eq_nil_iff]

theorem filterMap_mark?_at (position : Nat) (deeds : List Deed) :
    (deeds.filterMap Deed.mark?).filterMap
        (fun mark => if mark.task = position then some mark.starts else none) =
      (Deed.actsAt position deeds).filterMap Act.starts? := by
  induction deeds with
  | nil => rfl
  | cons deed rest ih =>
      rw [Deed.actsAt] at ih ⊢
      by_cases hat : deed.task = position <;> cases hact : deed.act.starts? <;>
        simp [Deed.mark?, hact, hat, ih]

/-- A mark carries the name of the instance that it belongs to. -/
theorem Accounted.exists_of_mark {mark : Mark} (h : Accounted tasks deeds schedule)
    (hmark : mark ∈ deeds.filterMap Deed.mark?) :
    ∃ task, schedule.tasks[mark.task]? = some task ∧ task.inst.id.name = mark.id := by
  obtain ⟨deed, hdeed, hact⟩ := List.mem_filterMap.mp hmark
  obtain ⟨_, _, rfl⟩ := Option.map_eq_some_iff.mp hact
  obtain ⟨task, hpresent, hinst⟩ := h.inst deed hdeed
  exact ⟨task, hpresent, by rw [hinst]⟩

/-- The marks of an instance that has ended are one start and one end. -/
theorem Accounted.countP_marks {position : Nat} {task : Task}
    (h : Accounted tasks deeds schedule) (hdistinct : DistinctNames tasks)
    (hpresent : schedule.tasks[position]? = some task) (hended : task.progress = .ended)
    (starts : Bool) :
    (deeds.filterMap Deed.mark?).countP
      (fun mark => mark.starts == starts && mark.id == task.inst.id.name) = 1 := by
  obtain ⟨script, _, haccounts⟩ := h.accounts hpresent
  have hat := filterMap_mark?_at position deeds
  rw [filterMap_starts?_of_ended haccounts hended] at hat
  have hcount : ([true, false].countP (· == starts)) = 1 := by cases starts <;> rfl
  rw [← hat] at hcount
  refine (List.countP_congr ?_).trans (List.countP_filterMap.symm.trans hcount)
  intro mark hmark
  obtain ⟨found, hfound, hid⟩ := h.exists_of_mark hmark
  have hiff : mark.id = task.inst.id.name ↔ mark.task = position := by
    constructor
    · intro hname
      exact (h.distinctNames hdistinct).eq hfound hpresent (hid.trans hname)
    · rintro rfl
      obtain rfl := Option.some.inj (hfound.symm.trans hpresent)
      exact hid.symm
  by_cases hposition : mark.task = position <;> simp [hiff, hposition]

theorem countP_trace (trace : List Entry) (test : Mark → Bool) :
    (trace.filterMap Entry.mark?).countP test =
      trace.countP fun entry => (entry.mark?.map test).getD false :=
  List.countP_filterMap

theorem isStartOf_eq (name : String) (entry : Entry) :
    entry.isStartOf name =
      (entry.mark?.map fun mark => mark.starts == true && mark.id == name).getD false := by
  obtain ⟨task, id, observed, event⟩ := entry
  cases event <;> simp [Entry.isStartOf, Entry.mark?, Event.starts?]

theorem isEndOf_eq (name : String) (entry : Entry) :
    entry.isEndOf name =
      (entry.mark?.map fun mark => mark.starts == false && mark.id == name).getD false := by
  obtain ⟨task, id, observed, event⟩ := entry
  cases event <;> simp [Entry.isEndOf, Entry.mark?, Event.starts?]

theorem Reaches.countP_isStartOf {position : Nat} {task : Task}
    (h : Reaches (start names tasks) deeds schedule) (hfresh : AllUnstarted tasks)
    (hdistinct : DistinctNames tasks) (hpresent : schedule.tasks[position]? = some task)
    (hended : task.progress = .ended) :
    schedule.shared.trace.countP (Entry.isStartOf task.inst.id.name) = 1 := by
  have hcount := (h.accounted hfresh).countP_marks hdistinct hpresent hended true
  rw [← h.marks_eq hfresh, Shared.marks, countP_trace] at hcount
  simpa only [← isStartOf_eq] using hcount

theorem Reaches.countP_isEndOf {position : Nat} {task : Task}
    (h : Reaches (start names tasks) deeds schedule) (hfresh : AllUnstarted tasks)
    (hdistinct : DistinctNames tasks) (hpresent : schedule.tasks[position]? = some task)
    (hended : task.progress = .ended) :
    schedule.shared.trace.countP (Entry.isEndOf task.inst.id.name) = 1 := by
  have hcount := (h.accounted hfresh).countP_marks hdistinct hpresent hended false
  rw [← h.marks_eq hfresh, Shared.marks, countP_trace] at hcount
  simpa only [← isEndOf_eq] using hcount

/-- If every element with one property stands before those with another, then so does
the first one. -/
theorem findIdx_lt_findIdx {α : Type} {earlier later : α → Bool} {list : List α}
    (hexists : ∃ item ∈ list, earlier item = true)
    (hdisjoint : ∀ item ∈ list, earlier item = true → later item = false)
    (horder : list.Pairwise fun first second => later first = true → earlier second = false) :
    list.findIdx earlier < list.findIdx later := by
  induction list with
  | nil => simp at hexists
  | cons item rest ih =>
      obtain ⟨hfirst, hrest⟩ := List.pairwise_cons.mp horder
      rw [List.findIdx_cons, List.findIdx_cons]
      cases hearlier : earlier item with
      | true => simp [hdisjoint item List.mem_cons_self hearlier]
      | false =>
          have hexists' : ∃ other ∈ rest, earlier other = true := by
            obtain ⟨other, hmem, hother⟩ := hexists
            rcases List.mem_cons.mp hmem with rfl | hmem
            · simp [hearlier] at hother
            · exact ⟨other, hmem, hother⟩
          have hlater : later item = false := by
            obtain ⟨other, hmem, hother⟩ := hexists'
            exact Bool.eq_false_iff.mpr fun hlater => by simp [hfirst other hmem hlater] at hother
          have := ih hexists' (fun other hmem => hdisjoint other (.tail _ hmem)) hrest
          simpa [hlater] using this

/-- The end of a routine is recorded before the start of those that depend on it. -/
theorem Reaches.findIdx_isEndOf_lt {first second : Nat} {a b : Task}
    (h : Reaches (start names tasks) deeds schedule) (hfresh : AllUnstarted tasks)
    (hdistinct : DistinctNames tasks) (hfirst : schedule.tasks[first]? = some a)
    (hsecond : schedule.tasks[second]? = some b) (hdepends : first ∈ b.dependencies)
    (hended : a.progress = .ended) :
    schedule.shared.trace.findIdx (Entry.isEndOf a.inst.id.name) <
      schedule.shared.trace.findIdx (Entry.isStartOf b.inst.id.name) := by
  have haccounted := h.accounted hfresh
  have hnames := haccounted.distinctNames hdistinct
  obtain ⟨_, horigin, _⟩ := haccounted.accounts hsecond
  have hposition : ∀ {entry : Entry} {mark : Mark} {position : Nat} {task : Task},
      entry ∈ schedule.shared.trace → entry.mark? = some mark →
      schedule.tasks[position]? = some task → mark.id = task.inst.id.name →
      mark.task = position := by
    intro entry mark position task hentry hmark hpresent hid
    have hmem : mark ∈ deeds.filterMap Deed.mark? := by
      rw [← h.marks_eq hfresh]
      exact List.mem_filterMap.mpr ⟨entry, hentry, hmark⟩
    obtain ⟨found, hfound, hname⟩ := haccounted.exists_of_mark hmem
    exact hnames.eq hfound hpresent (hname.trans hid)
  apply findIdx_lt_findIdx
  · apply List.countP_pos_iff.mp
    rw [h.countP_isEndOf hfresh hdistinct hfirst hended]
    exact Nat.one_pos
  · intro entry _ hends
    cases hevent : entry.event <;> simp_all [Entry.isEndOf, Entry.isStartOf]
  · have horder := h.inOrder hfresh
    rw [← h.marks_eq hfresh, Shared.marks, List.pairwise_filterMap] at horder
    apply horder.imp_of_mem
    intro entry other hentry hother hbefore hstarts
    rw [← Bool.not_eq_true]
    intro hends
    obtain ⟨hstarted, hb⟩ := Bool.and_eq_true_iff.mp hstarts
    obtain ⟨hclosed, ha⟩ := Bool.and_eq_true_iff.mp hends
    have hmark : entry.mark? = some ⟨entry.task, entry.id, true⟩ := by
      simp [Entry.mark?, eq_of_beq hstarted, Event.starts?]
    have hmark' : other.mark? = some ⟨other.task, other.id, false⟩ := by
      simp [Entry.mark?, eq_of_beq hclosed, Event.starts?]
    have hsecond' := hposition hentry hmark hsecond (eq_of_beq hb)
    have hfirst' := hposition hother hmark' hfirst (eq_of_beq ha)
    have hnot := hbefore _ hmark _ hmark' rfl rfl _ (hsecond' ▸ horigin)
    rw [hfirst'] at hnot
    exact hnot hdepends

end Schedule

end Firmware
