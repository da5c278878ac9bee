import Firmware.Proofs.Code.Pieces
import Firmware.Proofs.Schedule.Completion
/-!
What a run emits.  The code of a schedule is made of the pieces that the deeds up to
it added, in their order, and the roles of an instance are emitted right after its
routine has ended.  A run that succeeds has executed every step once.
-/

namespace Firmware

def Act.pieces (inst : Instance) : Act → List Piece
  | .step own executed => executed.pieces own
  | .role capability => capability.pieces inst
  | .started | .resumed | .ended => []

def Deed.pieces (deed : Deed) : List Piece := deed.act.pieces deed.inst

def Act.role? : Act → Option Capability
  | .role capability => some capability
  | _ => none

namespace Task

variable {task : Task} {position : Nat} {script : List Step} {acts : List Act}

theorem pieces_deeds (task : Task) (position : Nat) (act : Act) (passed : List (Local × Step)) :
    (task.deeds position act passed).flatMap Deed.pieces =
      act.pieces task.inst ++ passed.flatMap fun pair => pair.2.pieces pair.1 := by
  simp only [deeds, List.map_cons, List.flatMap_cons, List.flatMap_map]
  rfl

theorem pieces_closing (task : Task) (position : Nat) :
    (task.closing position).flatMap Deed.pieces =
      task.inst.declaration.capabilities.flatMap (Capability.pieces task.inst) := by
  simp only [closing, List.map_cons, List.flatMap_cons, List.flatMap_map]
  rfl

/-- To begin a poll adds nothing to the code. -/
theorem Begins.code {shared shared' : Shared} {act : Act} {own : Local} {steps : List Step}
    (h : task.Begins position shared act own shared' steps) :
    shared'.code = shared.code ∧ act.pieces task.inst = [] := by
  cases h <;> exact ⟨rfl, rfl⟩

/-- A routine that has ended has executed its whole script. -/
theorem Accounts.steps_of_ended (h : task.Accounts script acts)
    (hended : task.progress = .ended) : acts.filterMap Act.step? = script := by
  cases h with
  | unstarted hprogress => simp [hended] at hprogress
  | parked hprogress => simp [hended] at hprogress
  | ended _ _ hsteps =>
      rw [← hsteps]
      simp [List.filterMap_cons, Act.step?]

/-- When a routine has ended, each role of its instance has been emitted. -/
theorem Accounts.roles_of_ended (h : task.Accounts script acts)
    (hended : task.progress = .ended) :
    acts.filterMap Act.role? = task.inst.declaration.capabilities := by
  cases h with
  | unstarted hprogress => simp [hended] at hprogress
  | parked hprogress => simp [hended] at hprogress
  | @ended body _ hinner _ =>
      have hbody : body.filterMap Act.role? = [] := by
        rw [List.filterMap_eq_nil_iff]
        intro act hact
        have := hinner act hact
        cases act <;> simp_all [Act.isInner, Act.role?]
      simp [List.filterMap_cons, List.filterMap_map, Act.role?, hbody, Function.comp_def]

end Task

namespace Schedule

variable {names : NameTable} {tasks : List Task} {deeds more : List Deed} {ordered : Ordered}
  {schedule schedule' : Schedule} {task : Task} {position : Nat}

/-- The end of a routine adds the pieces of the roles to the code. -/
theorem code_of_conclude {own : Local} {shared final : Shared}
    (h : conclude task own (own.record .ended shared) = .ok final) :
    final.code = (task.inst.declaration.capabilities.flatMap
      (Capability.pieces task.inst)).foldl Code.put shared.code := by
  obtain ⟨code, hcode, rfl⟩ := conclude_eq_ok_iff.mp h
  rw [Shared.foldl_publish_code]
  exact Capability.emitAll_eq_ok hcode

/-- A poll adds the pieces of its deeds to the code. -/
theorem Polls.code (h : Polls schedule more schedule') :
    schedule'.shared.code = (more.flatMap Deed.pieces).foldl Code.put schedule.shared.code := by
  cases h with
  | ends _ _ hbegins hpasses hconcluded =>
      obtain ⟨hcode, hpieces⟩ := hbegins.code
      rw [List.flatMap_append, Task.pieces_deeds, Task.pieces_closing, hpieces, List.nil_append,
        List.foldl_append, ← hcode, ← hpasses.code]
      exact code_of_conclude hconcluded
  | parks _ _ hbegins hpasses hwaits =>
      obtain ⟨hcode, hpieces⟩ := hbegins.code
      rw [Task.pieces_deeds, hpieces, List.nil_append, List.flatMap_append, List.foldl_append,
        ← hcode, ← hpasses.code, List.flatMap_singleton]
      exact hwaits.code

/-- The code is made of the pieces of all deeds, in the order in which they were
done. -/
theorem Reaches.code (h : Reaches (start names tasks) deeds schedule) :
    schedule.shared.code = Code.ofPieces (deeds.flatMap Deed.pieces) := by
  rw [← Code.foldl_put_empty]
  induction h with
  | refl => rfl
  | poll _ hpolls ih => rw [hpolls.code, ih, List.flatMap_append, List.foldl_append]

/-- The roles of an instance are emitted right after its routine has ended. -/
theorem Reaches.closing (h : Reaches (start names tasks) deeds schedule)
    (hfresh : AllUnstarted tasks) (hpresent : schedule.tasks[position]? = some task)
    (hended : task.progress = .ended) :
    ∃ before after, deeds = before ++ task.closing position ++ after := by
  induction h generalizing task with
  | refl =>
      obtain ⟨script, hprogress⟩ := hfresh task (List.mem_of_getElem? hpresent)
      simp [hended] at hprogress
  | @poll deeds more middle final _ hpolls ih =>
      have hkept : middle.tasks[position]? = some task →
          ∃ before after, deeds ++ more = before ++ task.closing position ++ after := by
        intro hmiddle
        obtain ⟨before, after, rfl⟩ := ih hmiddle hended
        exact ⟨before, after ++ more, by simp only [List.append_assoc]⟩
      cases hpolls with
      | @ends at' old act _ _ _ _ _ _ passed =>
          rcases getElem?_advance_cases hpresent with ⟨rfl, rfl⟩ | ⟨_, hmiddle⟩
          · refine ⟨deeds ++ old.deeds position act passed, [], ?_⟩
            rw [List.append_nil, List.append_assoc]
            rfl
          · exact hkept hmiddle
      | parks =>
          rcases getElem?_advance_cases hpresent with ⟨rfl, rfl⟩ | ⟨_, hmiddle⟩
          · simp at hended
          · exact hkept hmiddle

/-- What a complete run did for the task at a position: it executed each step of the
script once and in order, and it emitted each role of the instance once, right after
the routine had ended. -/
structure Emits (deeds : List Deed) (position : Nat) (task : Task) (script : List Step) :
    Prop where
  steps : (Deed.actsAt position deeds).filterMap Act.step? = script
  roles : (Deed.actsAt position deeds).filterMap Act.role? = task.inst.declaration.capabilities
  closing : ∃ before after, deeds = before ++ task.closing position ++ after

theorem Reaches.emits {script : List Step} (h : Reaches (start names tasks) deeds schedule)
    (hfresh : AllUnstarted tasks) (hended : ∀ task ∈ schedule.tasks, task.progress = .ended)
    (hpresent : tasks[position]? = some task) (hscript : task.progress = .unstarted script) :
    Emits deeds position task script := by
  have haccounted := h.accounted hfresh
  have hbound := (List.getElem?_eq_some_iff.mp hpresent).1
  rw [← haccounted.length] at hbound
  have hfinal := List.getElem?_eq_getElem hbound
  have hprogress := hended _ (List.getElem_mem hbound)
  obtain ⟨script', horigin, haccounts⟩ := haccounted.accounts hfinal
  obtain rfl := Option.some.inj (horigin.symm.trans hpresent)
  obtain rfl := Progress.unstarted.inj hscript
  have hclosing := h.closing hfresh hfinal hprogress
  exact ⟨haccounts.steps_of_ended hprogress, haccounts.roles_of_ended hprogress, hclosing⟩

/-- A run that succeeds has ended every routine, has done for every instance what its
script and its roles say, and returns the code that this added.  Wherever nothing is
parked and nothing can start, everything has ended. -/
theorem run_emits_all {instances : List Instance}
    (hordered : Ordered.ofInstances instances = .ok ordered)
    (hassigns : Assigns ordered tasks) :
    (∀ code, (start names tasks).run.result = .ok code →
      ∃ deeds final, Runs (start names tasks) deeds final ∧ final.step = .settled ∧
        (start names tasks).run.trace = final.shared.trace ∧
        final.tasks.length = ordered.instances.length ∧
        (∀ task ∈ final.tasks, task.progress = .ended) ∧
        code = Code.ofPieces (deeds.flatMap Deed.pieces) ∧
        ∀ position task script, tasks[position]? = some task →
          task.progress = .unstarted script → Emits deeds position task script) ∧
    ∀ deeds final, Reaches (start names tasks) deeds final → final.next? = none →
      (∀ task ∈ final.tasks, task.pause? = none) →
        ∀ task ∈ final.tasks, task.progress = .ended := by
  have hdownward := hassigns.downward hordered
  constructor
  · intro code hcode
    obtain ⟨deeds, final, hruns, hsettled, hended, rfl, htrace⟩ :=
      run_eq_ok hassigns.fresh hdownward hcode
    refine ⟨deeds, final, hruns, hsettled, htrace, ?_, hended, hruns.reaches.code, ?_⟩
    · rw [(hruns.reaches.accounted hassigns.fresh).length, ← hassigns.instances,
        List.length_map]
    · intro position task script hpresent hscript
      exact hruns.reaches.emits hassigns.fresh hended hpresent hscript
  · intro deeds final hreaches hnext hidle task hmem
    exact progress_of_settled ((hreaches.accounted hassigns.fresh).downward hdownward)
      (next?_eq_none_iff.mp hnext) hidle task hmem

def lamp (name : String) : Instance where
  index := 0
  declaration := { Declaration.ofSchema "lamp" (.empty "lamp") with capabilities := [.schedulable] }
  config := .empty (Path.root.field name)
  id := ⟨name, "Lamp", true⟩

/-- Two lamps neither of which depends on the other. -/
def lamps : Ordered := ⟨[lamp "left", lamp "right"], [[], []]⟩

/-- The left lamp waits for the right one. -/
def lampTasks : List Task :=
  [⟨lamp "left", [], true, .unstarted [.await "right" none, .act (.comment "both")]⟩,
    ⟨lamp "right", [], true, .unstarted [.act (.declare .own [])]⟩]

def lampCode : Code where
  headers := []
  globals := [⟨"Lamp", "right", true⟩]
  statements := [.assignment "right" (.new "Lamp" []), .comment "both"]
  runtimeObjects := ["right", "left"]

theorem ofInstances_lamps : Ordered.ofInstances lamps.instances = .ok lamps := by
  with_unfolding_all rfl

theorem assigns_lamps : Assigns lamps lampTasks where
  instances := rfl
  dependencies {position task} hpresent := by
    match position, hpresent with
    | 0, hpresent => exact Option.some.inj hpresent ▸ rfl
    | 1, hpresent => exact Option.some.inj hpresent ▸ rfl
  fresh := by simp [AllUnstarted, lampTasks]

theorem run_lamps : (start .empty lampTasks).run.result = .ok lampCode := by
  with_unfolding_all rfl

/-- The run of the lamps goes through both scripts. -/
theorem lamps_emit_all :
    ∃ deeds final, Runs (start .empty lampTasks) deeds final ∧
      (∀ task ∈ final.tasks, task.progress = .ended) ∧
      lampCode = Code.ofPieces (deeds.flatMap Deed.pieces) := by
  obtain ⟨deeds, final, hruns, _, _, _, hended, hcode, _⟩ :=
    (run_emits_all ofInstances_lamps assigns_lamps).1 lampCode run_lamps
  exact ⟨deeds, final, hruns, hended, hcode⟩

end Schedule

end Firmware
