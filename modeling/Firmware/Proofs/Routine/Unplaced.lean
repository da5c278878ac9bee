import Firmware.Proofs.NameTable.Renamed
import Firmware.Routine.Poll
/-!
Routines without regard to locations.  The steps of a routine read the values of its
configuration and give out names, but look at no location; so with all locations taken out
of its state a routine does the same, and fails for the same reasons.
-/

namespace Firmware

/-- The state of a routine with its configuration moved to the root of the document. -/
def Local.content (own : Local) : Local := { own with config := own.config.content }

def Shared.unplaced (shared : Shared) : Shared := { shared with names := shared.names.unplaced }

def Poll.unplaced : Poll → Poll
  | .ended own shared => .ended own.content shared.unplaced
  | .failed failure shared => .failed failure.unplaced shared.unplaced
  | .paused pause rest own shared => .paused pause rest own.content shared.unplaced

namespace Local

theorem identifier_content (own : Local) : own.content.identifier = own.identifier := by
  funext subject
  cases subject <;> rfl

theorem literal_content (own : Local) (field : String) :
    own.content.literal field = own.literal field := by
  rw [literal, literal, content, Node.bind_get?_content Value.literal?_content]

theorem failure_content (own : Local) (fault : RoutineFault) :
    own.content.failure fault = (own.failure fault).unplaced := by
  rw [failure, failure, Failure.unplaced_ofProblem]
  rfl

theorem bindTo_content (own : Local) (bind : Option String) (id : Identifier) :
    own.content.bindTo bind id = (own.bindTo bind id).content := by
  cases bind <;> rfl

theorem record_content (own : Local) (event : Event) (shared : Shared) :
    own.content.record event shared.unplaced = (own.record event shared).unplaced := rfl

end Local

mutual

theorem Term.expression_content (own : Local) :
    ∀ term : Term, term.expression own.content = term.expression own
  | .code _ | .self => rfl
  | .bound name => by
      rw [expression, expression, Local.identifier_content]
  | .literal field => own.literal_content field
  | .new type args => by
      rw [expression, expression, Term.expressions_content own args]
  | .call function args => by
      rw [expression, expression, Term.expressions_content own args]
  | .method target name args => by
      rw [expression, expression, Term.expression_content own target,
        Term.expressions_content own args]

theorem Term.expressions_content (own : Local) :
    ∀ terms : List Term, Term.expressions own.content terms = Term.expressions own terms
  | [] => rfl
  | term :: rest => by
      rw [expressions, expressions, Term.expression_content own term,
        Term.expressions_content own rest]

end

variable {own : Local} {shared : Shared}

theorem Action.perform_unplaced (action : Action) (own : Local) (shared : Shared) :
    action.perform own.content shared.unplaced =
      (action.perform own shared).map fun state => (state.1.content, state.2.unplaced) := by
  cases action with
  | comment | header | global | fail => rfl
  | allocate base type bind =>
      simp only [perform, Local.bindTo_content]
      rfl
  | peek => rfl
  | declare subject args =>
      simp only [perform, Local.identifier_content, Term.expressions_content]
      cases own.identifier subject with
      | error fault => rfl
      | ok id => cases Term.expressions own args <;> rfl
  | add term | assign _ term =>
      simp only [perform, Term.expression_content]
      cases term.expression own <;> rfl
  | register subject =>
      simp only [perform, Local.identifier_content]
      cases own.identifier subject <;> rfl

namespace Step

theorem receive_unplaced (bind : Option String) (id : Identifier) (own : Local)
    (shared : Shared) :
    receive bind id own.content shared.unplaced =
      ((receive bind id own shared).1.content, (receive bind id own shared).2.unplaced) := by
  cases bind <;> rfl

/-- The steps of a routine come to the same with and without locations. -/
theorem run_unplaced (steps : List Step) (own : Local) (shared : Shared) :
    run own.content shared.unplaced steps = (run own shared steps).unplaced := by
  induction steps generalizing own shared with
  | nil => rfl
  | cons step rest ih =>
      cases step with
      | act action =>
          rw [run, run, Action.perform_unplaced]
          cases action.perform own shared with
          | error fault =>
              exact congrArg (Poll.failed · shared.unplaced) (own.failure_content fault)
          | ok state => exact ih state.1 state.2
      | await name bind =>
          have hsame : (own.record (.waits name) shared).unplaced.published =
              (own.record (.waits name) shared).published := rfl
          simp only [run, Local.record_content, receive_unplaced]
          rw [hsame]
          cases Table.get? (own.record (.waits name) shared).published name with
          | some id => exact ih _ _
          | none => rfl
      | suspend =>
          have hsame : own.content.mark = own.mark := rfl
          rw [run, run, hsame]
          cases own.mark with
          | some name => rfl
          | none =>
              exact congrArg (Poll.failed · shared.unplaced) (own.failure_content .idleSuspension)

theorem resume_unplaced (pause : Pause) (id : Identifier) (own : Local) (shared : Shared)
    (rest : List Step) :
    resume pause id own.content shared.unplaced rest =
      (resume pause id own shared rest).unplaced := by
  cases pause with
  | awaiting name bind =>
      rw [resume, resume, receive_unplaced]
      exact run_unplaced ..
  | yielded name => exact run_unplaced rest own (own.record .resumed shared)

end Step

end Firmware
