import Firmware.Proofs.Schema.Extension
/-!
Schemas made by composition.  A schema starts empty and grows by fields, constraints
and other schemas, and the schemas nested in its kinds are made in the same way.
Whatever the order of these operations, no two fields share a name and every default
is one that the kind of its field has converted.
-/

namespace Firmware

/-- Whether a kind holds neither a schema nor another kind. -/
def Kind.isSimple : Kind → Bool
  | .nested _ | .sequenceOf _ => false
  | _ => true

/-- Kinds whose schemas are all made by composition. -/
inductive Kind.Composed : Kind → Prop
  | simple {kind : Kind} (simple : kind.isSimple = true) : Composed kind
  | sequenceOf {item : Kind} (composed : Composed item) : Composed (.sequenceOf item)
  | empty (name : String) : Composed (.nested (.empty name))
  | rename {schema : Schema} (composed : Composed (.nested schema)) (name : String) :
      Composed (.nested (schema.rename name))
  | extend {schema extended : Schema} {fields : Table String Field}
      (composed : Composed (.nested schema)) (kinds : ∀ entry ∈ fields, Composed entry.2.kind)
      (made : schema.extend fields = .ok extended) : Composed (.nested extended)
  | addConstraint {schema constrained : Schema} {constraint : Constraint}
      (composed : Composed (.nested schema))
      (made : schema.addConstraint constraint = .ok constrained) :
      Composed (.nested constrained)
  | merge {schema other merged : Schema} (composed : Composed (.nested schema))
      (others : Composed (.nested other)) (made : schema.merge other = .ok merged) :
      Composed (.nested merged)

def Schema.Composed (schema : Schema) : Prop := (Kind.nested schema).Composed

/-- Kinds whose schemas are all made by composition, of fields whose defaults pass a test
as they are given. -/
inductive Kind.ComposedOf (test : Value → Prop) : Kind → Prop
  | simple {kind : Kind} (simple : kind.isSimple = true) : ComposedOf test kind
  | sequenceOf {item : Kind} (composed : ComposedOf test item) : ComposedOf test (.sequenceOf item)
  | empty (name : String) : ComposedOf test (.nested (.empty name))
  | rename {schema : Schema} (composed : ComposedOf test (.nested schema)) (name : String) :
      ComposedOf test (.nested (schema.rename name))
  | extend {schema extended : Schema} {fields : Table String Field}
      (composed : ComposedOf test (.nested schema))
      (kinds : ∀ entry ∈ fields, ComposedOf test entry.2.kind)
      (defaults : ∀ entry ∈ fields, ∀ value, entry.2.default = some value → test value)
      (made : schema.extend fields = .ok extended) : ComposedOf test (.nested extended)
  | addConstraint {schema constrained : Schema} {constraint : Constraint}
      (composed : ComposedOf test (.nested schema))
      (made : schema.addConstraint constraint = .ok constrained) :
      ComposedOf test (.nested constrained)
  | merge {schema other merged : Schema} (composed : ComposedOf test (.nested schema))
      (others : ComposedOf test (.nested other)) (made : schema.merge other = .ok merged) :
      ComposedOf test (.nested merged)

/-- Schemas made by composition, of fields whose defaults pass a test as they are given. -/
def Schema.ComposedOf (test : Value → Prop) (schema : Schema) : Prop :=
  (Kind.nested schema).ComposedOf test

/-- What holds of the schemas in a kind at every depth: names are not shared, and
defaults are converted. -/
inductive Kind.Sound : Kind → Prop
  | simple {kind : Kind} (simple : kind.isSimple = true) : Sound kind
  | sequenceOf {item : Kind} (sound : Sound item) : Sound (.sequenceOf item)
  | nested {schema : Schema} (names : (Table.keys schema.fields).Nodup)
      (kinds : ∀ entry ∈ schema.fields, Sound entry.2.kind)
      (defaults : ∀ entry ∈ schema.fields, ∀ value, entry.2.default = some value →
        ∃ raw, entry.2.kind.convert (Path.root.field entry.1) entry.1 raw = .ok value) :
      Sound (.nested schema)

theorem Kind.Sound.item {item : Kind} (h : (Kind.sequenceOf item).Sound) : item.Sound := by
  cases h with
  | simple h => simp [isSimple] at h
  | sequenceOf hitem => exact hitem

/-- What holds of a schema and of those in its kinds. -/
def Schema.Sound (schema : Schema) : Prop := (Kind.nested schema).Sound

namespace Schema

variable {schema merged extended other : Schema} {name : String} {field : Field}

theorem Sound.names (h : schema.Sound) : (Table.keys schema.fields).Nodup := by
  cases h with
  | simple h => simp [Kind.isSimple] at h
  | nested hnames => exact hnames

theorem Sound.kinds (h : schema.Sound) : ∀ entry ∈ schema.fields, entry.2.kind.Sound := by
  cases h with
  | simple h => simp [Kind.isSimple] at h
  | nested _ hkinds => exact hkinds

theorem Sound.defaults (h : schema.Sound) :
    ∀ entry ∈ schema.fields, ∀ value, entry.2.default = some value →
      ∃ raw, entry.2.kind.convert (Path.root.field entry.1) entry.1 raw = .ok value := by
  cases h with
  | simple h => simp [Kind.isSimple] at h
  | nested _ _ hdefaults => exact hdefaults

theorem Sound.field?_eq (h : schema.Sound) (hmem : (name, field) ∈ schema.fields) :
    schema.field? name = some field :=
  Table.get?_eq_of_mem h.names hmem

theorem Sound.mergeField (h : schema.Sound) (hkind : field.kind.Sound)
    (hmade : schema.mergeField name field = .ok merged) : merged.Sound := by
  obtain ⟨_, rfl⟩ := mergeField_eq_ok_iff.mp hmade
  refine .nested (Table.nodup_keys_insert h.names) ?_ ?_
  · intro entry hmem
    rcases Table.mem_insert hmem with rfl | hold
    · exact hkind
    · exact h.kinds entry hold
  · intro entry hmem value hvalue
    rcases Table.mem_insert hmem with rfl | hold
    · obtain ⟨given, _, hconvert⟩ := Field.exists_convert_of_normalized hvalue
      exact ⟨given, hconvert⟩
    · exact h.defaults entry hold value hvalue

theorem Sound.extend {fields : Table String Field} (h : schema.Sound)
    (hkinds : ∀ entry ∈ fields, entry.2.kind.Sound)
    (hmade : schema.extend fields = .ok extended) : extended.Sound :=
  foldlM_invariant Schema.Sound
    (fun _ entry _ hmem hsound hstep => hsound.mergeField (hkinds entry hmem) hstep) h hmade

end Schema

/-- Fields of kinds without parts make a composed schema. -/
theorem Schema.composed_of_extend {name : String} {schema : Schema} (fields : Table String Field)
    (hsimple : fields.all (·.2.kind.isSimple) = true)
    (hmade : (Schema.empty name).extend fields = .ok schema) : schema.Composed :=
  .extend (.empty name) (fun entry hmem => .simple (List.all_eq_true.mp hsimple entry hmem)) hmade

/-- Fields of kinds without parts and without defaults keep a schema composed. -/
theorem Schema.ComposedOf.extend_plain {test : Value → Prop} {schema extended : Schema}
    (h : schema.ComposedOf test) (fields : Table String Field)
    (hsimple : fields.all (·.2.kind.isSimple) = true)
    (hplain : fields.all (·.2.default.isNone) = true)
    (hmade : schema.extend fields = .ok extended) : extended.ComposedOf test := by
  refine .extend h (fun entry hmem => .simple (List.all_eq_true.mp hsimple entry hmem)) ?_ hmade
  intro entry hmem value hvalue
  have hnone := List.all_eq_true.mp hplain entry hmem
  rw [hvalue] at hnone
  contradiction

/-- Composition keeps names apart and converts defaults. -/
theorem Kind.Composed.sound {kind : Kind} (h : kind.Composed) : kind.Sound := by
  induction h with
  | simple hsimple => exact .simple hsimple
  | sequenceOf _ ih => exact .sequenceOf ih
  | empty name => exact .nested .nil (by simp [Schema.empty]) (by simp [Schema.empty])
  | @rename schema _ name ih =>
      have hschema : schema.Sound := ih
      exact .nested hschema.names hschema.kinds hschema.defaults
  | @extend schema _ _ _ _ hmade ih hkinds =>
      have hschema : schema.Sound := ih
      exact hschema.extend hkinds hmade
  | @addConstraint schema _ _ _ hmade ih =>
      have hschema : schema.Sound := ih
      obtain rfl := Schema.addConstraint_eq_ok hmade
      exact .nested hschema.names hschema.kinds hschema.defaults
  | @merge schema other _ _ _ hmade ih ihother =>
      have hschema : schema.Sound := ih
      have hother : other.Sound := ihother
      obtain ⟨extended, hextended, rfl⟩ := Except.map_eq_ok hmade
      have hsound := hschema.extend hother.kinds hextended
      exact .nested hsound.names hsound.kinds hsound.defaults

theorem Schema.Composed.sound {schema : Schema} (h : schema.Composed) : schema.Sound :=
  Kind.Composed.sound h

end Firmware
