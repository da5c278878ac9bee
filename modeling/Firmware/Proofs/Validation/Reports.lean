import Firmware.Proofs.Schema.Composed
import Firmware.Proofs.Validation.Fields
/-!
What the stages of validation report.  Stages that look at several parts report the problems
of all of them, in order; what a schema says of the fields and keys of a node comes before
what its constraints say, and hides it.
-/

namespace Firmware

namespace Validation

/-- The problems that a result reports: none if it is a value. -/
def reported {α : Type} : Except (List Problem) α → List Problem
  | .ok _ => []
  | .error problems => problems

variable {α β : Type}

@[simp] theorem reported_map (result : Except (List Problem) α) (change : α → β) :
    reported (result.map change) = reported result := by
  cases result <;> rfl

theorem reported_gather (results : List (Except (List Problem) α)) :
    reported (gather results) = results.flatMap reported := by
  induction results with
  | nil => rfl
  | cons result rest ih =>
      rw [List.flatMap_cons, ← ih]
      cases result with
      | ok value => rw [gather, reported_map, reported, List.nil_append]
      | error problems =>
          rw [gather]
          cases gather rest with
          | ok values => rw [reported, reported, reported, List.append_nil]
          | error more => rfl

theorem reported_settle (problems : List Problem) (value : α) :
    reported (Problem.settle problems value) = problems := by
  cases problems <;> rfl

theorem problemsOf_eq_flatMap (results : List (String × Except (List Problem) (Option Value))) :
    problemsOf results = results.flatMap fun result => reported result.2 := by
  rw [problemsOf]
  congr 1
  funext ⟨name, outcome⟩
  cases outcome <;> rfl

theorem mem_reported_located {path : Path} {name : String} {result : Except Refusal α}
    {problem : Problem} (h : problem ∈ reported (located path name result)) :
    ∃ refusal, located path name result = .error [.invalidValue path name refusal] ∧
      problem = .invalidValue path name refusal := by
  cases result with
  | ok value => simp [located, reported] at h
  | error refusal => exact ⟨refusal, rfl, List.mem_singleton.mp h⟩

end Validation

open Validation

variable {path : Path} {name : String} {raw : Node} {schema : Schema}
  {field : Field} {given : Value} {problem : Problem}

theorem Field.reported_result_of_given (h : raw.given? name = some given) :
    reported (field.result path raw name) =
      reported (field.kind.convert (path.field name) name given) := by
  rw [result, h]
  exact reported_map _ some

theorem Field.reported_result_of_lacking (h : raw.given? name = none) :
    reported (field.result path raw name) =
      if field.required then [.missingField path name] else [] := by
  rw [result, h]
  change reported (field.kind.absent field.required field.default path name) = _
  unfold Kind.absent
  split
  · rfl
  · split <;> rfl

namespace Schema

/-- The problems of the fields of a raw node, and then those of its keys. -/
def faults (schema : Schema) (path : Path) (raw : Node) : List Problem :=
  (schema.fields.flatMap fun entry => reported (entry.2.result path raw entry.1)) ++
    unknownKeys raw schema.fields path

/-- The problems of the constraints, with what the fields make of a raw node. -/
def breaches (schema : Schema) (path : Path) (raw : Node) : List Problem :=
  schema.constraints.filterMap
    (·.problem? ⟨path, entriesOf (results path schema.fields raw)⟩ path)

/-- Constraints are looked at only where nothing else is wrong. -/
theorem validate_eq (schema : Schema) (path : Path) (raw : Node) :
    schema.validate path raw =
      if schema.faults path raw = [] then
        Problem.settle (schema.breaches path raw) ⟨path, entriesOf (results path schema.fields raw)⟩
      else .error (schema.faults path raw) := by
  have hfaults : problemsOf (results path schema.fields raw) ++
      unknownKeys raw schema.fields path = schema.faults path raw := by
    rw [problemsOf_eq_flatMap, results_eq_map, List.flatMap_map, faults]
  obtain ⟨name, fields, constraints⟩ := schema
  rw [validate, conclude]
  dsimp only at hfaults
  rw [hfaults]
  split
  · next hnone => rw [if_pos hnone, breaches]
  · next hsome => rw [if_neg hsome]

theorem reported_validate (schema : Schema) (path : Path) (raw : Node) :
    reported (schema.validate path raw) =
      if schema.faults path raw = [] then schema.breaches path raw else schema.faults path raw := by
  rw [validate_eq]
  split
  · exact reported_settle _ _
  · rfl

theorem mem_breaches (h : problem ∈ schema.breaches path raw) :
    problem.kind = .constraintViolation ∧ problem.path = some path := by
  obtain ⟨constraint, _, hproblem⟩ := List.mem_filterMap.mp h
  obtain ⟨message, _, rfl⟩ := Option.map_eq_some_iff.mp hproblem
  exact ⟨rfl, rfl⟩

theorem mem_unknownKeys {fields : Table String Field}
    (h : problem ∈ unknownKeys raw fields path) :
    ∃ key ∈ raw.keys, key ∉ Table.keys fields ∧ problem = .unknownField path key := by
  obtain ⟨key, hkey, rfl⟩ := List.mem_map.mp h
  obtain ⟨hpresent, hundeclared⟩ := List.mem_filter.mp hkey
  rw [Bool.not_eq_true', ← Bool.not_eq_true, Table.contains_eq_true_iff] at hundeclared
  exact ⟨key, hpresent, hundeclared, rfl⟩

/-- What is wrong in a field that is given is a problem of its value; otherwise a field is
missing, or a key is unknown. -/
theorem mem_faults (h : problem ∈ schema.faults path raw) :
    (∃ name field given, (name, field) ∈ schema.fields ∧ raw.given? name = some given ∧
        problem ∈ reported (field.kind.convert (path.field name) name given)) ∨
      (∃ name field, (name, field) ∈ schema.fields ∧ field.required = true ∧
        raw.given? name = none ∧ problem = .missingField path name) ∨
      ∃ key ∈ raw.keys, key ∉ Table.keys schema.fields ∧ problem = .unknownField path key := by
  rcases List.mem_append.mp h with hfield | hkey
  · obtain ⟨⟨name, field⟩, hmem, hreported⟩ := List.mem_flatMap.mp hfield
    cases hgiven : raw.given? name with
    | some given =>
        rw [Field.reported_result_of_given hgiven] at hreported
        exact .inl ⟨name, field, given, hmem, hgiven, hreported⟩
    | none =>
        rw [Field.reported_result_of_lacking hgiven] at hreported
        split at hreported
        · next hrequired =>
            obtain rfl := List.mem_singleton.mp hreported
            exact .inr (.inl ⟨name, field, hmem, hrequired, hgiven, rfl⟩)
        · exact absurd hreported List.not_mem_nil
  · exact .inr (.inr (mem_unknownKeys hkey))

end Schema

namespace Kind

/-- A kind without parts has at most one thing to say of a value. -/
theorem exists_located_of_isSimple {kind : Kind} (h : kind.isSimple = true) (name : String)
    (given : Value) : ∃ result, ∀ path, kind.convert path name given = located path name result := by
  cases kind with
  | nested | sequenceOf => simp [isSimple] at h
  | _ => exact ⟨_, fun _ => rfl⟩

theorem convert_nested_of_no_mapping (schema : Schema) (path : Path) (name : String)
    (h : given.node? = none) :
    (Kind.nested schema).convert path name given =
      .error [.invalidValue path name (.unlike "a mapping" given.describe)] := by
  rw [convert, h]
  rfl

theorem reported_nested (schema : Schema) (path : Path) (name : String) (raw : Node) :
    reported ((Kind.nested schema).convert path name raw.toValue) =
      reported (schema.validate path raw) := by
  change reported ((schema.validate path raw).map Node.toValue) = _
  exact reported_map _ _

theorem reported_sequenceOf (item : Kind) (path : Path) (name : String) (given : Value) :
    reported ((Kind.sequenceOf item).convert path name given) =
      given.items.zipIdx.flatMap fun part =>
        reported (item.convert (path.index part.2) name part.1) := by
  rw [convert, reported_map, reported_gather, List.mapIdx_eq_zipIdx_map, List.flatMap_map]

end Kind

end Firmware
