import Firmware.Proofs.Results
import Firmware.Proofs.Table
/-!
The fields of a validated node.  Every field of a schema is looked at by itself, so
the entries of the node are told one by one: each is what its field makes of the raw
node.
-/

namespace Firmware

open Validation

def Field.result (path : Path) (raw : Node) (name : String) (field : Field) :
    Except (List Problem) (Option Value) :=
  match raw.given? name with
  | some value => (field.kind.convert (path.field name) name value).map some
  | none => field.kind.absent field.required field.default path name

variable {path : Path} {raw node : Node} {schema : Schema} {name : String} {field : Field}
  {value : Value}

theorem Schema.results_eq_map (path : Path) (fields : List (String × Field)) (raw : Node) :
    Schema.results path fields raw =
      fields.map fun entry => (entry.1, entry.2.result path raw entry.1) := by
  induction fields with
  | nil => rfl
  | cons entry rest ih =>
      obtain ⟨name, kind, required, default⟩ := entry
      rw [Schema.results, ih]
      rfl

theorem Validation.conclude_eq_ok {fields : Table String Field} {constraints : List Constraint}
    {results : List (String × Except (List Problem) (Option Value))}
    (h : conclude raw fields constraints path results = .ok node) :
    problemsOf results = [] ∧ unknownKeys raw fields path = [] ∧
      constraints.filterMap (·.problem? node path) = [] ∧ node = ⟨path, entriesOf results⟩ := by
  unfold conclude at h
  simp only at h
  split at h
  · next hnone =>
      obtain ⟨hproblems, hunknown⟩ := List.append_eq_nil_iff.mp hnone
      obtain ⟨hconstraints, rfl⟩ := Problem.settle_eq_ok_iff.mp h
      exact ⟨hproblems, hunknown, hconstraints, rfl⟩
  · simp at h

namespace Schema

theorem validate_eq_ok (h : schema.validate path raw = .ok node) :
    problemsOf (results path schema.fields raw) = [] ∧
      unknownKeys raw schema.fields path = [] ∧
      schema.constraints.filterMap (·.problem? node path) = [] ∧
      node = ⟨path, entriesOf (results path schema.fields raw)⟩ := by
  obtain ⟨name, fields, constraints⟩ := schema
  exact conclude_eq_ok h

theorem path_of_validate (h : schema.validate path raw = .ok node) : node.path = path := by
  rw [(validate_eq_ok h).2.2.2]

/-- The entries of a validated node are what the fields make of the raw one. -/
theorem mem_entries_of_validate (h : schema.validate path raw = .ok node) :
    (name, value) ∈ node.entries ↔
      ∃ field, (name, field) ∈ schema.fields ∧ field.result path raw name = .ok (some value) := by
  obtain ⟨_, _, _, rfl⟩ := validate_eq_ok h
  rw [results_eq_map]
  simp only [entriesOf, List.mem_filterMap, List.mem_map, Prod.exists]
  constructor
  · rintro ⟨_, _, ⟨found, field, hmem, hpair⟩, hentry⟩
    obtain ⟨rfl, rfl⟩ := Prod.mk.inj hpair
    split at hentry
    · next hresult =>
        obtain ⟨rfl, hfield⟩ := Prod.mk.inj hresult
        obtain ⟨rfl, rfl⟩ := Prod.mk.inj (Option.some.inj hentry)
        exact ⟨field, hmem, hfield⟩
    · simp at hentry
  · rintro ⟨field, hmem, hresult⟩
    exact ⟨name, _, ⟨name, field, hmem, rfl⟩, by simp [hresult]⟩

/-- The fields that have a value keep their order. -/
theorem keys_sublist_of_validate (h : schema.validate path raw = .ok node) :
    node.keys.Sublist (Table.keys schema.fields) := by
  obtain ⟨_, _, _, rfl⟩ := validate_eq_ok h
  rw [results_eq_map, Node.keys]
  generalize schema.fields = fields
  induction fields with
  | nil => exact .slnil
  | cons entry rest ih =>
      simp only [entriesOf, Table.keys, List.map_cons] at ih ⊢
      rw [List.filterMap_cons]
      split
      · exact ih.cons _
      · next pair hpair =>
          split at hpair
          · next hresult =>
              obtain ⟨rfl, _⟩ := Prod.mk.inj hresult
              rw [← Option.some.inj hpair, List.map_cons]
              exact ih.cons_cons _
          · simp at hpair

end Schema

theorem Kind.absent_eq_ok_some {kind : Kind} {required : Bool} {default : Option Value}
    (h : kind.absent required default path name = .ok (some value)) :
    default = some value ∨
      ∃ type base, kind = .declareId type base ∧ value = .identifier (.automatic type base) := by
  unfold Kind.absent at h
  split at h
  · simp at h
  · split at h
    · exact .inl (congrArg some (Option.some.inj (Except.ok.inj h)))
    · next type base => exact .inr ⟨type, base, rfl, (Option.some.inj (Except.ok.inj h)).symm⟩
    · simp at h

/-- The value of a field was converted from what is given, or else is the default or waits for
a name. -/
theorem Field.result_cases_given (h : field.result path raw name = .ok (some value)) :
    (∃ given, raw.given? name = some given ∧
        field.kind.convert (path.field name) name given = .ok value) ∨
      raw.given? name = none ∧ (field.default = some value ∨
        ∃ type base, field.kind = .declareId type base ∧
          value = .identifier (.automatic type base)) := by
  unfold Field.result at h
  split at h
  · next given hgiven =>
      obtain ⟨converted, hconvert, hsome⟩ := Except.map_eq_ok h
      exact .inl ⟨given, hgiven, Option.some.inj hsome ▸ hconvert⟩
  · next hgiven => exact .inr ⟨hgiven, Kind.absent_eq_ok_some h⟩

theorem Field.result_cases (h : field.result path raw name = .ok (some value)) :
    (∃ given, raw.given? name = some given ∧
        field.kind.convert (path.field name) name given = .ok value) ∨
      field.default = some value ∨
      ∃ type base, field.kind = .declareId type base ∧
        value = .identifier (.automatic type base) :=
  (Field.result_cases_given h).imp_right And.right

theorem Validation.located_eq_ok {α : Type} {result : Except Refusal α} {found : α}
    (h : located path name result = .ok found) : result = .ok found := by
  cases result with
  | error refusal => simp [located] at h
  | ok value => exact congrArg _ (Except.ok.inj h)

theorem Kind.convert_nested_eq_ok {given : Value}
    (h : (Kind.nested schema).convert path name given = .ok value) :
    ∃ raw node, given = raw.toValue ∧ schema.validate path raw = .ok node ∧
      value = node.toValue := by
  rw [convert] at h
  split at h
  · next raw hmapping =>
      obtain ⟨node, hvalid, rfl⟩ := Except.map_eq_ok h
      replace hmapping := Validation.located_eq_ok hmapping
      cases given with
      | mapping own entries =>
          obtain rfl := Except.ok.inj hmapping
          exact ⟨_, node, rfl, hvalid, rfl⟩
      | _ => simp [Value.node?, Value.expect] at hmapping
  · simp at h

theorem Kind.convert_nested_of_validate (h : schema.validate path raw = .ok node)
    (name : String) : (Kind.nested schema).convert path name raw.toValue = .ok node.toValue := by
  change (schema.validate path raw).map Node.toValue = _
  rw [h]
  rfl

theorem Kind.convert_sequenceOf_eq_ok {item : Kind} {given : Value}
    (h : (Kind.sequenceOf item).convert path name given = .ok value) :
    ∃ items, value = .sequence items ∧ items.length = given.items.length ∧
      ∀ (position : Nat) (converted : Value), items[position]? = some converted →
        ∃ old, given.items[position]? = some old ∧
          item.convert (path.index position) name old = .ok converted := by
  rw [convert] at h
  obtain ⟨items, hgather, rfl⟩ := Except.map_eq_ok h
  replace hgather := gather_eq_ok_iff.mp hgather
  refine ⟨items, rfl, by simpa using (congrArg List.length hgather).symm, ?_⟩
  intro position converted hconverted
  have hitem := congrArg (·[position]?) hgather
  simp only [List.getElem?_map, hconverted, Option.map_some, List.getElem?_mapIdx] at hitem
  exact Option.map_eq_some_iff.mp hitem

theorem Kind.convert_declareId_eq_ok {type : String} {base : Option String} {given : Value}
    (h : (Kind.declareId type base).convert path name given = .ok value) :
    ∃ slot, value = .identifier slot ∧ slot.declares = true ∧ slot.type = type := by
  rw [Kind.convert] at h
  obtain ⟨slot, hslot, rfl⟩ := Except.map_eq_ok (located_eq_ok h)
  refine ⟨slot, rfl, ?_⟩
  unfold Value.asDeclaration at hslot
  split at hslot
  · split at hslot
    · simp at hslot
    · obtain rfl := Except.ok.inj hslot
      exact ⟨rfl, rfl⟩
  · obtain rfl := Except.ok.inj hslot
    exact ⟨rfl, rfl⟩
  · simp at hslot

theorem Kind.convert_integer_eq_ok {min max : Int64} {given : Value}
    (h : (Kind.integer min max).convert path name given = .ok value) :
    ∃ number, value = .integer number ∧ min ≤ number ∧ number ≤ max := by
  rw [Kind.convert] at h
  obtain ⟨number, _, hrange⟩ := Except.bind_eq_ok (located_eq_ok h)
  unfold Kind.inRange at hrange
  split at hrange
  · simp at hrange
  · next hwithin =>
      rw [not_or, Int64.not_lt, Int64.not_lt] at hwithin
      exact ⟨number, (Except.ok.inj hrange).symm, hwithin⟩

/-- A floating-point number that is converted is not found to be outside its limits. -/
theorem Kind.convert_float_eq_ok {min max : Double} {given : Value}
    (h : (Kind.float min max).convert path name given = .ok value) :
    ∃ number, value = .float number ∧ number.lt min = false ∧ max.lt number = false := by
  rw [Kind.convert] at h
  obtain ⟨number, _, hbounds⟩ := Except.bind_eq_ok (located_eq_ok h)
  unfold Kind.inBounds at hbounds
  split at hbounds
  · simp at hbounds
  · next hwithin =>
      rw [Bool.or_eq_true, not_or, Bool.not_eq_true, Bool.not_eq_true] at hwithin
      exact ⟨number, (Except.ok.inj hbounds).symm, hwithin⟩

end Firmware
