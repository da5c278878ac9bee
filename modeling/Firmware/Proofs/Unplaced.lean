import Firmware.Failure
import Firmware.Proofs.Validation.Reports
/-!
Problems without their locations.  Two results are the same up to the locations of problems
if they are equal once every location is replaced by the root of the document.
-/

namespace Firmware

/-- The problem moved to the root of the document, if it has a location at all. -/
def Problem.unplaced (problem : Problem) : Problem :=
  { problem with path := problem.path.map fun _ => .root }

def Failure.unplaced (failure : Failure) : Failure :=
  { failure with causes := failure.causes.map Problem.unplaced }

/-- The message of a failure does not tell where its causes are. -/
theorem Failure.unplaced_ofProblems (stage : Stage) (causes : List Problem) :
    (ofProblems stage causes).unplaced = ofProblems stage (causes.map Problem.unplaced) := by
  rw [ofProblems, ofProblems, unplaced, List.length_map]

theorem Failure.unplaced_ofProblems_eq {causes causes' : List Problem} (stage : Stage)
    (h : causes.map Problem.unplaced = causes'.map Problem.unplaced) :
    (ofProblems stage causes).unplaced = (ofProblems stage causes').unplaced := by
  rw [unplaced_ofProblems, unplaced_ofProblems, h]

theorem Failure.unplaced_ofProblem (stage : Stage) (cause : Problem) :
    (ofProblem stage cause).unplaced = ofProblem stage cause.unplaced :=
  unplaced_ofProblems stage [cause]

namespace Validation

variable {α β γ : Type} {problems problems' : List Problem}

/-- A result whose problems are moved to the root of the document.  What stands in the place
of a value is left to `erase`. -/
def bare (erase : α → β) : Except (List Problem) α → Except (List Problem) β
  | .ok value => .ok (erase value)
  | .error problems => .error (problems.map Problem.unplaced)

theorem bare_eq_mapError (erase : α → β) (result : Except (List Problem) α) :
    bare erase result = (result.map erase).mapError (List.map Problem.unplaced) := by
  cases result <;> rfl

theorem toOption_bare (erase : α → β) (result : Except (List Problem) α) :
    (bare erase result).toOption = result.toOption.map erase := by
  cases result <;> rfl

/-- Results that are the same up to locations are problems that are, or values that are. -/
theorem bare_eq_cases {erase : α → γ} {erase' : β → γ} {left : Except (List Problem) α}
    {right : Except (List Problem) β} (h : bare erase left = bare erase' right) :
    (∃ problems problems', left = .error problems ∧ right = .error problems' ∧
      problems.map Problem.unplaced = problems'.map Problem.unplaced) ∨
    ∃ value value', left = .ok value ∧ right = .ok value' ∧ erase value = erase' value' := by
  rw [bare_eq_mapError, bare_eq_mapError] at h
  exact Except.map_mapError_eq_cases h

/-- Results that are the same up to locations stay so under changes that keep what `erase` sees
the same. -/
theorem bare_map_eq {α' β' γ' : Type} {erase : α → γ} {erase' : β → γ} {next : α' → γ'}
    {next' : β' → γ'} {change : α → α'} {change' : β → β'} {left : Except (List Problem) α}
    {right : Except (List Problem) β}
    (himp : ∀ a b, erase a = erase' b → next (change a) = next' (change' b))
    (h : bare erase left = bare erase' right) :
    bare next (left.map change) = bare next' (right.map change') := by
  rcases bare_eq_cases h with ⟨problems, problems', rfl, rfl, hsame⟩ |
    ⟨value, value', rfl, rfl, hsame⟩
  · exact congrArg Except.error hsame
  · exact congrArg Except.ok (himp value value' hsame)

theorem bare_settle (erase : α → β) (problems : List Problem) (value : α) :
    bare erase (Problem.settle problems value) =
      Problem.settle (problems.map Problem.unplaced) (erase value) := by
  cases problems <;> rfl

theorem reported_bare (erase : α → β) (result : Except (List Problem) α) :
    reported (bare erase result) = (reported result).map Problem.unplaced := by
  cases result <;> rfl

/-- Results are gathered in the same way with and without locations. -/
theorem bare_gather (erase : α → β) (results : List (Except (List Problem) α)) :
    bare (List.map erase) (gather results) = gather (results.map (bare erase)) := by
  induction results with
  | nil => rfl
  | cons result rest ih =>
      cases result with
      | ok value =>
          rw [List.map_cons, bare, gather, gather, ← ih]
          cases gather rest <;> rfl
      | error problems =>
          rw [List.map_cons, bare, gather, gather, ← ih]
          cases gather rest with
          | ok values => rfl
          | error more => exact congrArg Except.error List.map_append

end Validation

end Firmware
