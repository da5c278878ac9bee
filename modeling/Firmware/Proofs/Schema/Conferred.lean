import Firmware.Proofs.Schema.Composed
/-!
Properties of defaults.  Composition converts every default, so defaults have every property that
kinds confer on what they convert: of values that pass a test, and again of values that have the
property, since merging converts the defaults of the other schema a second time.
-/

namespace Firmware

/-- Kinds in which every default, at any depth, has a property along with the kind of its
field. -/
inductive Kind.DefaultsHave (property : Kind → Value → Prop) : Kind → Prop
  | simple {kind : Kind} (simple : kind.isSimple = true) : DefaultsHave property kind
  | sequenceOf {item : Kind} (defaults : DefaultsHave property item) :
      DefaultsHave property (.sequenceOf item)
  | nested {schema : Schema} (names : (Table.keys schema.fields).Nodup)
      (kinds : ∀ entry ∈ schema.fields, DefaultsHave property entry.2.kind)
      (defaults : ∀ entry ∈ schema.fields, ∀ value, entry.2.default = some value →
        property entry.2.kind value) : DefaultsHave property (.nested schema)

variable {name : String} {kind : Kind} {schema : Schema} {field : Field}
  {property : Kind → Value → Prop} {test : Value → Prop}

/-- Whether kinds give a property to what they make of values that pass a test, and of values
that have the property already. -/
def Kind.Confers (test : Value → Prop) (property : Kind → Value → Prop) : Prop :=
  ∀ {kind : Kind} {path : Path} {name : String} {given value : Value},
    kind.DefaultsHave property → test given ∨ property kind given →
      kind.convert path name given = .ok value → property kind value

namespace Schema

variable {merged extended : Schema}

/-- Schemas in which every default, at any depth, has a property along with the kind of its
field. -/
def DefaultsHave (property : Kind → Value → Prop) (schema : Schema) : Prop :=
  (Kind.nested schema).DefaultsHave property

theorem DefaultsHave.names (h : schema.DefaultsHave property) :
    (Table.keys schema.fields).Nodup := by
  cases h with
  | simple h => simp [Kind.isSimple] at h
  | nested hnames => exact hnames

theorem DefaultsHave.kinds (h : schema.DefaultsHave property) :
    ∀ entry ∈ schema.fields, entry.2.kind.DefaultsHave property := by
  cases h with
  | simple h => simp [Kind.isSimple] at h
  | nested _ hkinds => exact hkinds

theorem DefaultsHave.defaults (h : schema.DefaultsHave property) :
    ∀ entry ∈ schema.fields, ∀ value, entry.2.default = some value →
      property entry.2.kind value := by
  cases h with
  | simple h => simp [Kind.isSimple] at h
  | nested _ _ hdefaults => exact hdefaults

theorem DefaultsHave.mergeField (hconfers : Kind.Confers test property)
    (h : schema.DefaultsHave property) (hkind : field.kind.DefaultsHave property)
    (hdefault : ∀ given, field.default = some given → test given ∨ property field.kind given)
    (hmade : schema.mergeField name field = .ok merged) : merged.DefaultsHave property := by
  obtain ⟨_, rfl⟩ := mergeField_eq_ok_iff.mp hmade
  refine .nested (Table.nodup_keys_insert h.names) ?_ ?_
  · intro entry hmem
    rcases Table.mem_insert hmem with rfl | hold
    · exact hkind
    · exact h.kinds entry hold
  · intro entry hmem value hvalue
    rcases Table.mem_insert hmem with rfl | hold
    · obtain ⟨given, hgiven, hconvert⟩ := Field.exists_convert_of_normalized hvalue
      exact hconfers hkind (hdefault given hgiven) hconvert
    · exact h.defaults entry hold value hvalue

theorem DefaultsHave.extend {fields : Table String Field} (hconfers : Kind.Confers test property)
    (h : schema.DefaultsHave property)
    (hkinds : ∀ entry ∈ fields, entry.2.kind.DefaultsHave property)
    (hdefaults : ∀ entry ∈ fields, ∀ given, entry.2.default = some given →
      test given ∨ property entry.2.kind given)
    (hmade : schema.extend fields = .ok extended) : extended.DefaultsHave property :=
  foldlM_invariant (Schema.DefaultsHave property)
    (fun _ entry _ hmem hhave hstep =>
      hhave.mergeField hconfers (hkinds entry hmem) (hdefaults entry hmem) hstep) h hmade

end Schema

/-- Composition of fields whose defaults pass a test makes kinds whose defaults have every
property that is conferred on such values. -/
theorem Kind.ComposedOf.defaultsHave (hconfers : Kind.Confers test property)
    (h : kind.ComposedOf test) : kind.DefaultsHave property := by
  induction h with
  | simple hsimple => exact .simple hsimple
  | sequenceOf _ ih => exact .sequenceOf ih
  | empty name => exact .nested .nil (by simp [Schema.empty]) (by simp [Schema.empty])
  | @rename schema _ name ih =>
      have hschema : schema.DefaultsHave property := ih
      exact .nested hschema.names hschema.kinds hschema.defaults
  | @extend schema _ _ _ _ hdefaults hmade ih hkinds =>
      have hschema : schema.DefaultsHave property := ih
      exact hschema.extend hconfers hkinds (fun entry hmem given hgiven =>
        .inl (hdefaults entry hmem given hgiven)) hmade
  | @addConstraint schema _ _ _ hmade ih =>
      have hschema : schema.DefaultsHave property := ih
      obtain rfl := Schema.addConstraint_eq_ok hmade
      exact .nested hschema.names hschema.kinds hschema.defaults
  | @merge schema other _ _ _ hmade ih ihother =>
      have hschema : schema.DefaultsHave property := ih
      have hother : other.DefaultsHave property := ihother
      obtain ⟨extended, hextended, rfl⟩ := Except.map_eq_ok hmade
      -- The defaults of the other schema have been converted already.
      have hhave := hschema.extend hconfers hother.kinds (fun entry hmem given hgiven =>
        .inr (hother.defaults entry hmem given hgiven)) hextended
      exact .nested hhave.names hhave.kinds hhave.defaults

end Firmware
