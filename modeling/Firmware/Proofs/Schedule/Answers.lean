import Firmware.Proofs.Schedule.Account
/-!
Answers to routines that wait.  The events of a run tell which name a routine asked for
last, and which variable it got then.  It is the variable that is visible under that name,
and since what is visible stays so, all who ask for a name get the same variable.
-/

namespace Firmware

def Event.asked? : Event → Option String
  | .waits name => some name
  | _ => none

/-- The variable with which a routine goes on. -/
def Event.got? : Event → Option Identifier
  | .got id => some id
  | _ => none

namespace Entry

/-- The name that a task asked for last.  The latest entries come first. -/
def asked? (task : Nat) : List Entry → Option String
  | [] => none
  | entry :: earlier =>
      if entry.task = task then entry.event.asked?.or (asked? task earlier)
      else asked? task earlier

/-- The variables with which tasks went on, each with the name that its task had asked for
last.  The latest entries come first. -/
def answers : List Entry → List (Option String × Identifier)
  | [] => []
  | entry :: earlier =>
      match entry.event.got? with
      | some id => (asked? entry.task earlier, id) :: answers earlier
      | none => answers earlier

end Entry

/-- Whether every task that went on with a variable got the one that is visible under the
name it asked for. -/
def Shared.IsAnswered (shared : Shared) : Prop :=
  ∀ asked id, (asked, id) ∈ Entry.answers shared.events →
    ∃ name, asked = some name ∧ Table.get? shared.published name = some id

variable {own own' : Local} {shared shared' : Shared} {event : Event} {name : String}
  {id : Identifier} {task : Nat} {steps rest : List Step} {passed : List (Local × Step)}

theorem Shared.IsAnswered.mono (h : shared.IsAnswered) (hevents : shared'.events = shared.events)
    (hpublished : ∀ name id, Table.get? shared.published name = some id →
      Table.get? shared'.published name = some id) : shared'.IsAnswered := by
  intro asked id hmem
  rw [hevents] at hmem
  obtain ⟨name, hasked, hvisible⟩ := h asked id hmem
  exact ⟨name, hasked, hpublished name id hvisible⟩

namespace Local

theorem asked?_record_self :
    Entry.asked? own.task (own.record event shared).events =
      event.asked?.or (Entry.asked? own.task shared.events) :=
  if_pos rfl

theorem asked?_record_of_ne (hne : own.task ≠ task) :
    Entry.asked? task (own.record event shared).events = Entry.asked? task shared.events :=
  if_neg hne

theorem asked?_record_of_quiet (hquiet : event.asked? = none) (task : Nat) :
    Entry.asked? task (own.record event shared).events = Entry.asked? task shared.events := by
  by_cases heq : own.task = task
  · subst heq
    rw [asked?_record_self, hquiet, Option.none_or]
  · exact asked?_record_of_ne heq

theorem isAnswered_record (h : shared.IsAnswered) (hquiet : event.got? = none) :
    (own.record event shared).IsAnswered := by
  intro asked id hmem
  rw [record, Entry.answers, hquiet] at hmem
  exact h asked id hmem

end Local

namespace Step

theorem asked?_receive (bind : Option String) (id : Identifier) (own : Local) (shared : Shared)
    (task : Nat) :
    Entry.asked? task (receive bind id own shared).2.events = Entry.asked? task shared.events :=
  Local.asked?_record_of_quiet rfl task

theorem isAnswered_receive (h : shared.IsAnswered) (bind : Option String)
    (hasked : Entry.asked? own.task shared.events = some name)
    (hvisible : Table.get? shared.published name = some id) :
    (receive bind id own shared).2.IsAnswered := by
  intro asked found hmem
  have hanswers : Entry.answers (receive bind id own shared).2.events =
      (Entry.asked? own.task shared.events, id) :: Entry.answers shared.events := rfl
  rw [hanswers] at hmem
  rcases List.mem_cons.mp hmem with heq | hbefore
  · obtain ⟨rfl, rfl⟩ := Prod.mk.inj heq
    exact ⟨name, hasked, hvisible⟩
  · exact h asked found hbefore

end Step

namespace Action

variable {action : Action}

theorem Performs.asked? (h : action.Performs own shared own' shared') (task : Nat) :
    Entry.asked? task shared'.events = Entry.asked? task shared.events := by
  cases h with
  | peek => exact Local.asked?_record_of_quiet rfl task
  | register => exact Local.asked?_record_of_quiet rfl task
  | _ => rfl

theorem Performs.isAnswered (h : action.Performs own shared own' shared')
    (hbefore : shared.IsAnswered) : shared'.IsAnswered := by
  cases h with
  | peek => exact Local.isAnswered_record hbefore rfl
  | register => exact Local.isAnswered_record hbefore rfl
  | _ => exact hbefore

end Action

namespace Step

/-- A routine that is polled answers for itself only. -/
theorem Passes.asked?_of_ne (h : Passes own shared steps passed own' shared' rest)
    (hne : own.task ≠ task) :
    Entry.asked? task shared'.events = Entry.asked? task shared.events := by
  induction h with
  | stop => rfl
  | act performed _ ih =>
      have hperforms := Action.perform_eq_ok_iff.mp performed
      rw [ih (by rwa [hperforms.follows.task]), hperforms.asked?]
  | receive _ _ ih =>
      rw [ih (by rwa [(receive_follows ..).task]), asked?_receive, Local.asked?_record_of_ne hne]

/-- Whatever a routine asks for while it is polled, it gets what is visible. -/
theorem Passes.isAnswered (h : Passes own shared steps passed own' shared' rest)
    (hbefore : shared.IsAnswered) : shared'.IsAnswered := by
  induction h with
  | stop => exact hbefore
  | act performed _ ih => exact ih ((Action.perform_eq_ok_iff.mp performed).isAnswered hbefore)
  | receive visible _ ih =>
      apply ih
      apply isAnswered_receive (Local.isAnswered_record hbefore rfl) _ _ visible
      exact Local.asked?_record_self

variable {step : Step} {pause : Pause}

theorem Waits.asked?_of_ne (h : Waits own shared step pause own' shared')
    (hne : own.task ≠ task) :
    Entry.asked? task shared'.events = Entry.asked? task shared.events := by
  cases h with
  | await => exact Local.asked?_record_of_ne hne
  | suspend => rfl

theorem Waits.isAnswered (h : Waits own shared step pause own' shared')
    (hbefore : shared.IsAnswered) : shared'.IsAnswered := by
  cases h with
  | await => exact Local.isAnswered_record hbefore rfl
  | suspend => exact hbefore

/-- A routine that waits for a variable has asked for it. -/
theorem Waits.asked?_eq {bind : Option String}
    (h : Waits own shared step (.awaiting name bind) own' shared') :
    Entry.asked? own'.task shared'.events = some name := by
  cases h with
  | await => exact Local.asked?_record_self

end Step

namespace Task

/-- Whether a task that waits for a variable has asked for it. -/
def HasAsked (task : Task) (events : List Entry) : Prop :=
  ∀ name bind rest own, task.progress = .parked (.awaiting name bind) rest own →
    Entry.asked? own.task events = some name

variable {polled : Task} {position : Nat} {act : Act}

theorem Begins.asked? (h : polled.Begins position shared act own shared' steps) (task : Nat) :
    Entry.asked? task shared'.events = Entry.asked? task shared.events := by
  cases h with
  | start => exact Local.asked?_record_of_quiet rfl task
  | receive => exact Step.asked?_receive ..
  | resume => exact Local.asked?_record_of_quiet rfl task

theorem Begins.isAnswered (h : polled.Begins position shared act own shared' steps)
    (hasked : polled.HasAsked shared.events) (hbefore : shared.IsAnswered) :
    shared'.IsAnswered := by
  cases h with
  | start => exact Local.isAnswered_record hbefore rfl
  | receive hparked hvisible =>
      exact Step.isAnswered_receive hbefore _ (hasked _ _ _ _ hparked) hvisible
  | resume => exact Local.isAnswered_record hbefore rfl

end Task

namespace Schedule

variable {schedule schedule' : Schedule} {tasks : List Task} {deeds more : List Deed}

/-- What follows the end of a routine is recorded by no further event. -/
theorem events_conclude {task : Task} {final : Shared} (h : conclude task own shared = .ok final) :
    final.events = shared.events := by
  obtain ⟨code, _, rfl⟩ := conclude_eq_ok_iff.mp h
  exact Shared.foldl_publish_events ..

/-- What was visible before the end of a routine stays so. -/
theorem get?_conclude {task : Task} {final : Shared} (h : conclude task own shared = .ok final)
    (hvisible : Table.get? shared.published name = some id) :
    Table.get? final.published name = some id := by
  obtain ⟨code, _, rfl⟩ := conclude_eq_ok_iff.mp h
  exact Shared.get?_foldl_publish_of_some hvisible

/-- What holds of the awaits of a run: those that were answered got what is visible, and
those that were not are still known. -/
structure Answered (schedule : Schedule) : Prop where
  answered : schedule.shared.IsAnswered
  asked : ∀ task ∈ schedule.tasks, task.HasAsked schedule.shared.events

theorem answered_start (names : NameTable) (hfresh : AllUnstarted tasks) :
    Answered (start names tasks) where
  answered := by
    intro asked id hmem
    contradiction
  asked := by
    intro task hmem name bind rest own hparked
    obtain ⟨script, hprogress⟩ := hfresh task hmem
    rw [hprogress] at hparked
    contradiction

theorem Answered.advance {position : Nat} {task : Task} {progress : Progress} {final : Shared}
    (h : Answered schedule) (haccounted : Accounted tasks deeds schedule)
    (hanswered : final.IsAnswered)
    (hasked : ({ task with progress } : Task).HasAsked final.events)
    (hothers : ∀ other, position ≠ other →
      Entry.asked? other final.events = Entry.asked? other schedule.shared.events) :
    Answered (schedule.advance position task progress final) where
  answered := hanswered
  asked := by
    intro found hmem name bind rest own hparked
    obtain ⟨other, hfound⟩ := List.mem_iff_getElem?.mp hmem
    rcases getElem?_advance_cases hfound with ⟨_, rfl⟩ | ⟨hne, hfound⟩
    · exact hasked name bind rest own hparked
    · have htask : own.task = other := (haccounted.follows hfound hparked).task
      have hbefore := h.asked found (List.mem_of_getElem? hfound) name bind rest own hparked
      rw [← hbefore, htask]
      exact hothers other hne

theorem Answered.isAnswered_of_passes {position : Nat} {polled : Task} {act : Act} {before : Shared}
    (h : Answered schedule) (hpresent : schedule.tasks[position]? = some polled)
    (hbegins : polled.Begins position schedule.shared act own before steps)
    (hpasses : Step.Passes own before steps passed own' shared rest) : shared.IsAnswered := by
  have hasked := h.asked polled (List.mem_of_getElem? hpresent)
  apply hpasses.isAnswered
  exact hbegins.isAnswered hasked h.answered

/-- Every poll keeps the awaits in order. -/
theorem Answered.polls (h : Answered schedule) (haccounted : Accounted tasks deeds schedule)
    (hpolls : Polls schedule more schedule') : Answered schedule' := by
  cases hpolls with
  | @ends position task _ own own' _ _ _ _ _ hpresent _ hbegins hpasses hconcluded =>
      have hfollows := haccounted.follows_of_begins hpresent hbegins
      have hanswered := h.isAnswered_of_passes hpresent hbegins hpasses
      have hevents := events_conclude hconcluded
      apply h.advance haccounted
      · apply (Local.isAnswered_record hanswered rfl).mono hevents
        exact fun _ _ => get?_conclude hconcluded
      · intro _ _ _ _ hparked
        contradiction
      · intro other hne
        have htask : own.task ≠ other := by rwa [hfollows.task]
        rw [hevents, Local.asked?_record_of_quiet rfl, hpasses.asked?_of_ne htask, hbegins.asked?]
  | @parks position task _ own own' _ _ _ _ _ _ _ _ _ hpresent _ hbegins hpasses hwaits =>
      have hfollows := haccounted.follows_of_begins hpresent hbegins
      have hanswered := h.isAnswered_of_passes hpresent hbegins hpasses
      apply h.advance haccounted (hwaits.isAnswered hanswered)
      · intro name bind rest last hparked
        obtain ⟨rfl, _, rfl⟩ := Progress.parked.inj hparked
        exact hwaits.asked?_eq
      · intro other hne
        have htask : own.task ≠ other := by rwa [hfollows.task]
        have htask' : own'.task ≠ other := by rwa [hpasses.follows.task]
        rw [hwaits.asked?_of_ne htask', hpasses.asked?_of_ne htask, hbegins.asked?]

theorem Reaches.answered {names : NameTable} (h : Reaches (start names tasks) deeds schedule)
    (hfresh : AllUnstarted tasks) : Answered schedule := by
  induction h with
  | refl => exact answered_start names hfresh
  | poll hreaches hpolls ih => exact ih.polls (hreaches.accounted hfresh) hpolls

end Schedule

end Firmware
