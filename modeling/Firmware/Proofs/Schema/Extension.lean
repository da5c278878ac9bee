import Firmware.Proofs.Insertion
import Firmware.Proofs.Results
import Firmware.Schema.Catalog
/-!
Extension of schemas.  Fields are taken in one after another, up to the first that does not fit;
yet whether all of them fit depends only on the schema as it was before, and so does the place at
which each of them is stored.
-/

namespace Firmware

/-- Kinds of one sort, with any limits, options, types and checks.  Sequences are alike if their
items are. -/
inductive Kind.Alike : Kind → Kind → Prop
  | boolean : Alike .boolean .boolean
  | integer (min max min' max' : Int64) : Alike (.integer min max) (.integer min' max')
  | float (min max min' max' : Double) : Alike (.float min max) (.float min' max')
  | text : Alike .text .text
  | oneOf (options options' : List String) : Alike (.oneOf options) (.oneOf options')
  | duration : Alike .duration .duration
  | declareId (type type' : String) (base base' : Option String) :
      Alike (.declareId type base) (.declareId type' base')
  | useId (type type' : String) : Alike (.useId type) (.useId type')
  | nested (schema schema' : Schema) : Alike (.nested schema) (.nested schema')
  | sequenceOf {item item' : Kind} (alike : Alike item item') :
      Alike (.sequenceOf item) (.sequenceOf item')
  | custom (name name' : String) (check check' : Check) :
      Alike (.custom name check) (.custom name' check')

namespace Kind

variable {kind kind' kind'' : Kind}

/-- The kinds that may take each other's place are those that are alike. -/
theorem compatible_iff_alike : kind.compatible kind' = true ↔ kind.Alike kind' := by
  fun_induction compatible kind kind' with
  | case1 item item' ih =>
      rw [ih]
      exact ⟨.sequenceOf, fun h => by cases h; assumption⟩
  | case2 kind kind' hitems =>
      rw [beq_iff_eq]
      constructor
      · intro h
        cases kind <;> cases kind' <;> first
          | (simp [label] at h; done)
          | exact (hitems _ _ rfl rfl).elim
          | constructor
      · intro h
        cases h with
        | sequenceOf => exact (hitems _ _ rfl rfl).elim
        | _ => rfl

theorem Alike.refl : ∀ kind : Kind, kind.Alike kind
  | .boolean => .boolean
  | .integer .. => .integer ..
  | .float .. => .float ..
  | .text => .text
  | .oneOf _ => .oneOf ..
  | .duration => .duration
  | .declareId .. => .declareId ..
  | .useId _ => .useId ..
  | .nested _ => .nested ..
  | .sequenceOf item => .sequenceOf (Alike.refl item)
  | .custom .. => .custom ..

theorem Alike.symm (h : kind.Alike kind') : kind'.Alike kind := by
  induction h with
  | sequenceOf _ ih => exact .sequenceOf ih
  | _ => constructor

theorem Alike.trans (h : kind.Alike kind') (h' : kind'.Alike kind'') : kind.Alike kind'' := by
  induction h generalizing kind'' with
  | sequenceOf _ ih =>
      cases h' with
      | sequenceOf halike => exact .sequenceOf (ih halike)
  | _ => cases h'; constructor

end Kind

namespace Field

variable {name : String} {field taken : Field} {value : Value}

/-- Whether a default of a field is one that its kind can convert. -/
def IsAccepted (name : String) (field : Field) : Prop :=
  ∀ value, field.default = some value →
    ∃ kept, field.kind.convert (Path.root.field name) name value = .ok kept

def normalized (name : String) (field : Field) : Field :=
  { field with
    default := field.default.bind fun value =>
      (field.kind.convert (Path.root.field name) name value).toOption }

/-- A field as it is stored: the same, but with what its kind makes of its default. -/
structure TakenAs (name : String) (field taken : Field) : Prop where
  kind : taken.kind = field.kind
  required : taken.required = field.required
  absent : field.default = none → taken.default = none
  default : ∀ value, field.default = some value → ∃ kept,
    field.kind.convert (Path.root.field name) name value = .ok kept ∧ taken.default = some kept

theorem normalized_of_convert {kept : Value} (hdefault : field.default = some value)
    (h : field.kind.convert (Path.root.field name) name value = .ok kept) :
    field.normalized name = { field with default := some kept } := by
  rw [normalized, hdefault, Option.bind_some, h]
  rfl

theorem normalized_of_default_eq_none (h : field.default = none) :
    field.normalized name = field := by
  obtain ⟨kind, required, default⟩ := field
  obtain rfl : default = none := h
  rfl

theorem exists_convert_of_normalized (h : (field.normalized name).default = some value) :
    ∃ given, field.default = some given ∧
      field.kind.convert (Path.root.field name) name given = .ok value := by
  obtain ⟨given, hgiven, hconvert⟩ := Option.bind_eq_some_iff.mp h
  exact ⟨given, hgiven, Except.toOption_eq_some_iff.mp hconvert⟩

theorem IsAccepted.takenAs (h : field.IsAccepted name) :
    field.TakenAs name (field.normalized name) where
  kind := rfl
  required := rfl
  absent hnone := by rw [normalized_of_default_eq_none hnone, hnone]
  default value hvalue := by
    obtain ⟨kept, hkept⟩ := h value hvalue
    exact ⟨kept, hkept, by rw [normalized_of_convert hvalue hkept]⟩

end Field

namespace Schema

variable {schema extended merged : Schema} {fields : Table String Field} {name : String}
  {field taken : Field} {problem : Problem}

theorem normalizedField_eq_ok_iff {schemaName : String} :
    normalizedField schemaName name field = .ok taken ↔
      field.IsAccepted name ∧ taken = field.normalized name := by
  unfold normalizedField
  cases hdefault : field.default with
  | none =>
      have haccepted : field.IsAccepted name := by simp [Field.IsAccepted, hdefault]
      simp [haccepted, Field.normalized_of_default_eq_none hdefault, eq_comm]
  | some value =>
      have haccepted : field.IsAccepted name ↔
          ∃ kept, field.kind.convert (Path.root.field name) name value = .ok kept := by
        simp [Field.IsAccepted, hdefault]
      cases hconvert : field.kind.convert (Path.root.field name) name value with
      | ok kept =>
          simp [haccepted, hconvert, Field.normalized_of_convert hdefault hconvert, eq_comm]
      | error => simp [haccepted, hconvert]

theorem kind_of_normalizedField_eq_error {schemaName : String}
    (h : normalizedField schemaName name field = .error problem) :
    problem.kind = .schemaConflict := by
  unfold normalizedField at h
  split at h
  · simp at h
  · split at h
    · simp at h
    · exact Except.error.inj h ▸ rfl

/-- Whether a field can be taken in: its default is accepted, and a field of its name that is
there is of a kind like its own. -/
structure Admits (schema : Schema) (name : String) (field : Field) : Prop where
  accepted : field.IsAccepted name
  alike : ∀ previous, schema.field? name = some previous → previous.kind.Alike field.kind

theorem mergeField_eq_ok_iff : schema.mergeField name field = .ok merged ↔
    schema.Admits name field ∧
      merged = { schema with
        fields := Table.insert schema.fields name (field.normalized name) } := by
  unfold mergeField
  cases hfield : normalizedField schema.name name field with
  | error problem =>
      have hrefused : ¬field.IsAccepted name := fun haccepted => by
        rw [normalizedField_eq_ok_iff.mpr ⟨haccepted, rfl⟩] at hfield
        contradiction
      exact ⟨nofun, fun h => (hrefused h.1.accepted).elim⟩
  | ok taken =>
      obtain ⟨haccepted, rfl⟩ := normalizedField_eq_ok_iff.mp hfield
      simp only [bind, Except.bind]
      cases hprevious : schema.field? name with
      | none =>
          have hadmits : schema.Admits name field := ⟨haccepted, by simp [hprevious]⟩
          simp [hadmits, eq_comm]
      | some previous =>
          have hadmits : schema.Admits name field ↔ previous.kind.compatible field.kind = true := by
            rw [Kind.compatible_iff_alike]
            refine ⟨fun h => h.alike previous hprevious, fun h => ⟨haccepted, ?_⟩⟩
            rintro _ hsame
            obtain rfl := Option.some.inj (hprevious.symm.trans hsame)
            exact h
          rw [hadmits]
          change (if previous.kind.compatible field.kind then _ else _) = _ ↔ _
          split
          · next hcompatible => simp [hcompatible, eq_comm]
          · next hcompatible => simp [hcompatible]

theorem kind_of_mergeField_eq_error (h : schema.mergeField name field = .error problem) :
    problem.kind = .schemaConflict := by
  unfold mergeField at h
  cases hfield : normalizedField schema.name name field with
  | error =>
      rw [hfield] at h
      exact Except.error.inj h ▸ kind_of_normalizedField_eq_error hfield
  | ok taken =>
      rw [hfield] at h
      simp only [bind, Except.bind] at h
      split at h
      · simp at h
      · split at h
        · simp at h
        · exact Except.error.inj h ▸ rfl

/-- A field does not come in the way of one with another name. -/
theorem admits_insert_iff {other : String} (hne : other ≠ name) :
    { schema with fields := Table.insert schema.fields other taken }.Admits name field ↔
      schema.Admits name field := by
  have hsame : { schema with fields := Table.insert schema.fields other taken }.field? name =
      schema.field? name := Table.get?_insert_of_ne _ _ hne
  constructor
  · exact fun h => ⟨h.accepted, fun previous hprevious => h.alike previous (hsame.trans hprevious)⟩
  · exact fun h => ⟨h.accepted, fun previous hprevious =>
      h.alike previous (hsame.symm.trans hprevious)⟩

theorem addConstraint_eq_ok {constraint : Constraint}
    (h : schema.addConstraint constraint = .ok extended) :
    extended = { schema with constraints := schema.constraints ++ [constraint] } := by
  unfold addConstraint at h
  split at h
  · simp at h
  · exact (Except.ok.inj h).symm

/-- The schema with fields taken in, whether they are admitted or not. -/
def extendedBy (schema : Schema) (fields : Table String Field) : Schema :=
  { schema with
    fields := Table.insertAll schema.fields (Table.mapValues Field.normalized fields) }

/-- Fields are taken in exactly if the schema admits each of them. -/
theorem extend_eq_ok_iff (h : (Table.keys fields).Nodup) :
    schema.extend fields = .ok extended ↔
      (∀ entry ∈ fields, schema.Admits entry.1 entry.2) ∧ extended = schema.extendedBy fields := by
  induction fields generalizing schema with
  | nil =>
      have hnone : schema.extendedBy [] = schema := by cases schema; rfl
      rw [hnone]
      simp [extend, pure, Except.pure, eq_comm]
  | cons entry rest ih =>
      obtain ⟨name, field⟩ := entry
      obtain ⟨hnew, hrest⟩ := List.nodup_cons.mp h
      have hothers : ∀ entry ∈ rest, name ≠ entry.1 := by
        rintro entry hmem rfl
        exact hnew (List.mem_map.mpr ⟨entry, hmem, rfl⟩)
      let inserted : Schema :=
        { schema with fields := Table.insert schema.fields name (field.normalized name) }
      -- The fields that follow have other names: whether they are admitted does not depend on
      -- the one that has been taken in before them.
      have hadmits : (∀ entry ∈ rest, inserted.Admits entry.1 entry.2) ↔
          ∀ entry ∈ rest, schema.Admits entry.1 entry.2 :=
        forall₂_congr fun entry hmem => admits_insert_iff (hothers entry hmem)
      have hextended : inserted.extendedBy rest = schema.extendedBy ((name, field) :: rest) := rfl
      rw [extend, List.foldlM_cons]
      cases hstep : schema.mergeField name field with
      | error problem =>
          have hrefused : ¬schema.Admits name field := fun hadmitted => by
            rw [mergeField_eq_ok_iff.mpr ⟨hadmitted, rfl⟩] at hstep
            contradiction
          exact ⟨nofun, fun hall => (hrefused (hall.1 _ List.mem_cons_self)).elim⟩
      | ok merged =>
          obtain ⟨hadmitted, rfl⟩ := mergeField_eq_ok_iff.mp hstep
          change inserted.extend rest = .ok extended ↔ _
          rw [ih hrest, hadmits, hextended, List.forall_mem_cons]
          simp [hadmitted]

theorem kind_of_extend_eq_error (h : schema.extend fields = .error problem) :
    problem.kind = .schemaConflict := by
  induction fields generalizing schema with
  | nil => simp [extend, pure, Except.pure] at h
  | cons entry rest ih =>
      rw [extend, List.foldlM_cons] at h
      cases hstep : schema.mergeField entry.1 entry.2 with
      | error =>
          rw [hstep] at h
          exact Except.error.inj h ▸ kind_of_mergeField_eq_error hstep
      | ok merged =>
          rw [hstep] at h
          exact ih h

/-- What a schema is after fields have been taken in, apart from its constraints.  Its names keep
their positions, and new ones follow in the order of the fields. -/
structure Extends (schema : Schema) (fields : Table String Field) (extended : Schema) : Prop where
  name : extended.name = schema.name
  keys : Table.keys extended.fields = Table.keys schema.fields ++
    (Table.keys fields).filter fun name => name ∉ Table.keys schema.fields
  taken : ∀ name field, (name, field) ∈ fields →
    ∃ taken, extended.field? name = some taken ∧ field.TakenAs name taken
  others : ∀ name, name ∉ Table.keys fields → extended.field? name = schema.field? name

theorem field?_extendedBy (h : (Table.keys fields).Nodup) (schema : Schema) (name : String) :
    (schema.extendedBy fields).field? name =
      ((Table.get? fields name).map (Field.normalized name)).or (schema.field? name) := by
  have hkeys : (Table.keys (Table.mapValues Field.normalized fields)).Nodup := by simpa using h
  rw [field?, extendedBy, Table.get?_insertAll hkeys, Table.get?_mapValues]
  rfl

theorem extends_extendedBy (h : (Table.keys fields).Nodup)
    (haccepted : ∀ entry ∈ fields, entry.2.IsAccepted entry.1) (schema : Schema) :
    schema.Extends fields (schema.extendedBy fields) where
  name := rfl
  keys := by
    rw [extendedBy, Table.keys_insertAll (by simpa using h), Table.keys_mapValues]
  taken name field hmem := by
    refine ⟨field.normalized name, ?_, (haccepted _ hmem).takenAs⟩
    rw [field?_extendedBy h, Table.get?_eq_of_mem h hmem]
    rfl
  others name hnew := by
    rw [field?_extendedBy h, Table.get?_eq_none_iff.mpr hnew]
    rfl

/-- Under another name the same fields are taken in. -/
theorem extend_rename_eq_ok_iff (h : (Table.keys fields).Nodup) (kind : String) :
    (schema.rename kind).extend fields = .ok extended ↔
      ∃ made, schema.extend fields = .ok made ∧ extended = made.rename kind := by
  simp only [extend_eq_ok_iff h]
  have hadmits : ∀ name field, (schema.rename kind).Admits name field ↔ schema.Admits name field :=
    fun _ _ => ⟨fun h => ⟨h.accepted, h.alike⟩, fun h => ⟨h.accepted, h.alike⟩⟩
  simp only [hadmits]
  constructor
  · rintro ⟨hall, rfl⟩
    exact ⟨_, ⟨hall, rfl⟩, rfl⟩
  · rintro ⟨_, ⟨hall, rfl⟩, rfl⟩
    exact ⟨hall, rfl⟩

end Schema

namespace Catalog

variable {catalog : Catalog} {kind : String} {fields : Table String Field} {base : Option Schema}
  {schema extended : Schema}

/-- The answer to the definition of a kind, and the catalog after it.  Nothing is stored before
all the fields have been taken in. -/
def request (catalog : Catalog) (kind : String) (fields : Table String Field)
    (base : Option Schema) : Except Problem Schema × Catalog :=
  match catalog.define kind fields base with
  | .ok (schema, catalog) => (.ok schema, catalog)
  | .error problem => (.error problem, catalog)

theorem request_of_contains (h : catalog.contains kind = true) (fields : Table String Field)
    (base : Option Schema) : ∃ problem, problem.kind = .schemaConflict ∧
      catalog.request kind fields base = (.error problem, catalog) := by
  rw [request, define, if_pos h]
  exact ⟨_, rfl, rfl⟩

/-- A new kind is defined by what its base is extended to, under the name of the kind. -/
theorem define_of_base (h : catalog.contains kind = false) (schema : Schema) :
    catalog.define kind fields (some schema) =
      ((schema.rename kind).extend fields).map fun made => (made, catalog.insert kind made) := by
  rw [define, if_neg (by simp [h])]
  rfl

theorem request_of_extend (h : catalog.contains kind = false)
    (hmade : (schema.rename kind).extend fields = .ok extended) :
    catalog.request kind fields (some schema) =
      (.ok extended, ⟨catalog.schemas ++ [(kind, extended)]⟩) := by
  have hnew : kind ∉ Table.keys catalog.schemas := fun hmem => by
    rw [contains, Table.contains_eq_true_iff.mpr hmem] at h
    contradiction
  have hstored : catalog.insert kind extended = ⟨catalog.schemas ++ [(kind, extended)]⟩ :=
    congrArg Catalog.mk (Table.insert_eq_append hnew)
  rw [request, define_of_base h, hmade, ← hstored]
  rfl

theorem request_of_extend_eq_error {problem : Problem} (h : catalog.contains kind = false)
    (hmade : (schema.rename kind).extend fields = .error problem) :
    catalog.request kind fields (some schema) = (.error problem, catalog) := by
  rw [request, define_of_base h, hmade]
  rfl

end Catalog

namespace Schema

variable {schema : Schema} {fields : Table String Field}

/-- Fields extend a schema exactly if each of them is admitted: its default is accepted, and a
field of its name is of a kind like its own.  The schema then keeps its name, its constraints and
its other fields.  A new kind with the schema as its base is defined by the same extension, under
its own name and after the other kinds; if it cannot be defined, the catalog stays as it is. -/
theorem extension_of_fields (h : (Table.keys fields).Nodup) (schema : Schema) :
    ((∃ extended, schema.extend fields = .ok extended) ↔
        ∀ entry ∈ fields, schema.Admits entry.1 entry.2) ∧
      (∀ extended, schema.extend fields = .ok extended →
        schema.Extends fields extended ∧ extended.constraints = schema.constraints) ∧
      ∀ (catalog : Catalog) (kind : String),
        (catalog.contains kind = false → ∀ extended, schema.extend fields = .ok extended →
          catalog.request kind fields (some schema) =
            (.ok (extended.rename kind),
              ⟨catalog.schemas ++ [(kind, extended.rename kind)]⟩)) ∧
        (catalog.contains kind = true ∨ (¬∃ extended, schema.extend fields = .ok extended) →
          ∃ problem, problem.kind = .schemaConflict ∧
            catalog.request kind fields (some schema) = (.error problem, catalog)) := by
  refine ⟨?_, ?_, fun catalog kind => ⟨?_, ?_⟩⟩
  · simp only [extend_eq_ok_iff h, exists_and_left, exists_eq, and_true]
  · intro extended hmade
    obtain ⟨hall, rfl⟩ := (extend_eq_ok_iff h).mp hmade
    exact ⟨extends_extendedBy h (fun entry hmem => (hall entry hmem).accepted) schema, rfl⟩
  · intro hnew extended hmade
    exact Catalog.request_of_extend hnew ((extend_rename_eq_ok_iff h kind).mpr ⟨_, hmade, rfl⟩)
  · intro hrefused
    cases hcontains : catalog.contains kind with
    | true => exact Catalog.request_of_contains hcontains fields (some schema)
    | false =>
        have hfails : ¬∃ extended, schema.extend fields = .ok extended :=
          hrefused.resolve_left (by simp [hcontains])
        cases hmade : (schema.rename kind).extend fields with
        | ok extended =>
            obtain ⟨made, hextended, _⟩ := (extend_rename_eq_ok_iff h kind).mp hmade
            exact (hfails ⟨made, hextended⟩).elim
        | error problem =>
            exact ⟨problem, kind_of_extend_eq_error hmade,
              Catalog.request_of_extend_eq_error hcontains hmade⟩

def lamp : Schema :=
  ⟨"lamp", [("pin", .mandatory .anyInteger), ("inverted", .optional (.sequenceOf .boolean))], []⟩

/-- Further fields of a lamp, of which one is there already. -/
def lampFields : Table String Field :=
  [("label", .optional .text), ("inverted", .withDefault (.sequenceOf .boolean) (.bool false))]

/-- A field that is there keeps its place, with a default that has become a sequence. -/
theorem extension_of_lamp : (Table.keys lampFields).Nodup ∧
    ∃ extended, lamp.extend lampFields = .ok extended ∧
      Table.keys extended.fields = ["pin", "inverted", "label"] ∧
      (∃ taken, extended.field? "inverted" = some taken ∧
        taken.default = some (.sequence [.bool false])) ∧
      Catalog.empty.request "light" lampFields (some lamp) =
        (.ok (extended.rename "light"), ⟨[("light", extended.rename "light")]⟩) := by
  have hkeys : (Table.keys lampFields).Nodup := by decide
  obtain ⟨extended, hmade⟩ : ∃ extended, lamp.extend lampFields = .ok extended := ⟨_, rfl⟩
  obtain ⟨_, hresult, hcatalog⟩ := extension_of_fields hkeys lamp
  obtain ⟨hextends, _⟩ := hresult extended hmade
  obtain ⟨taken, hfound, htaken⟩ := hextends.taken "inverted" _ (.tail _ List.mem_cons_self)
  obtain ⟨kept, hkept, hdefault⟩ := htaken.default (.bool false) rfl
  obtain rfl := Except.ok.inj hkept
  exact ⟨hkeys, extended, hmade, hextends.keys, ⟨taken, hfound, hdefault⟩,
    (hcatalog .empty "light").1 rfl extended hmade⟩

end Schema

end Firmware
