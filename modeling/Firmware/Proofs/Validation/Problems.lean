import Firmware.Proofs.Validation.Fields
/-!
Failures of validation.  Nothing fails without a problem, so a field without problems has
an outcome.
-/

namespace Firmware

open Validation

variable {path : Path} {name : String} {kind : Kind} {raw : Node}

theorem Kind.absent_ne_error_nil {required : Bool} {default : Option Value} :
    kind.absent required default path name ≠ .error [] := by
  unfold absent
  split
  · simp
  · split <;> simp

namespace Validation

theorem located_ne_error_nil {α : Type} {result : Except Refusal α} :
    located path name result ≠ .error [] := by
  cases result <;> simp [located]

theorem gather_ne_error_nil {α : Type} {results : List (Except (List Problem) α)}
    (h : ∀ result ∈ results, result ≠ .error []) : gather results ≠ .error [] := by
  induction results with
  | nil => simp [gather]
  | cons result rest ih =>
      have hrest := ih fun other hmem => h other (.tail _ hmem)
      cases result with
      | ok value =>
          rw [gather]
          cases hgather : gather rest with
          | ok values => simp [Except.map]
          | error problems =>
              intro hnone
              exact hrest (hgather.trans (congrArg _ (Except.error.inj hnone)))
      | error problems =>
          have hsome : problems ≠ [] := fun hnone => h _ List.mem_cons_self (congrArg _ hnone)
          rw [gather]
          cases gather rest <;> simp [hsome]

theorem conclude_ne_error_nil {fields : Table String Field} {constraints : List Constraint}
    {results : List (String × Except (List Problem) (Option Value))} :
    conclude raw fields constraints path results ≠ .error [] := by
  unfold conclude
  simp only
  split
  · unfold Problem.settle
    split
    · simp
    · next hsome => simpa using hsome
  · next hsome => simpa using hsome

end Validation

theorem Kind.convert_ne_error_nil :
    ∀ {kind : Kind} {path : Path} {given : Value}, kind.convert path name given ≠ .error []
  | .sequenceOf item, path, given => by
      rw [convert, ne_eq, Except.map_eq_error_iff]
      refine gather_ne_error_nil fun result hmem => ?_
      obtain ⟨position, hposition, rfl⟩ := List.mem_mapIdx.mp hmem
      exact item.convert_ne_error_nil
  | .nested ⟨_, fields, constraints⟩, path, given => by
      rw [convert]
      split
      · rw [ne_eq, Except.map_eq_error_iff]
        exact conclude_ne_error_nil
      · next problems hlocated =>
          rintro ⟨⟩
          exact located_ne_error_nil hlocated
  | .boolean, _, _ | .integer _ _, _, _ | .float _ _, _, _ | .text, _, _ | .oneOf _, _, _
  | .duration, _, _ | .declareId _ _, _, _ | .useId _, _, _ | .custom _ _, _, _ =>
      located_ne_error_nil

theorem Field.result_ne_error_nil {field : Field} : field.result path raw name ≠ .error [] := by
  unfold result
  split
  · rw [ne_eq, Except.map_eq_error_iff]
    exact Kind.convert_ne_error_nil
  · exact Kind.absent_ne_error_nil

/-- Fields without problems all have an outcome. -/
theorem Schema.exists_result_of_problemsOf {fields : Table String Field}
    (h : problemsOf (results path fields raw) = []) {entry : String × Field}
    (hmem : entry ∈ fields) : ∃ outcome, entry.2.result path raw entry.1 = .ok outcome := by
  cases hresult : entry.2.result path raw entry.1 with
  | ok outcome => exact ⟨outcome, rfl⟩
  | error problems =>
      rw [results_eq_map, problemsOf, List.flatMap_map] at h
      have hnone : problems = [] := by simpa [hresult] using List.flatMap_eq_nil_iff.mp h entry hmem
      exact absurd (hnone ▸ hresult) Field.result_ne_error_nil

end Firmware
