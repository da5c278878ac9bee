import Firmware.Proofs.Schema.Merged
/-!
What is settled once a schema is made.  Whatever the operations that have made it, and at every
depth, its constraints mention declared fields only, and its defaults are there and are what their
own kinds make of them again, wherever they are converted.
-/

namespace Firmware

/-- Schemas that stand in a kind, at any depth. -/
inductive Kind.Nests (inner : Schema) : Kind → Prop
  | here : Nests inner (.nested inner)
  | field {schema : Schema} {entry : String × Field} (present : entry ∈ schema.fields)
      (below : Nests inner entry.2.kind) : Nests inner (.nested schema)
  | item {item : Kind} (below : Nests inner item) : Nests inner (.sequenceOf item)

namespace Schema

variable {schema other made inner : Schema} {fields : Table String Field} {name : String}
  {field : Field} {constraint : Constraint}

theorem mem_keys_of_mergeField (h : schema.mergeField name field = .ok made) {key : String} :
    key ∈ Table.keys made.fields ↔ key ∈ Table.keys schema.fields ∨ name = key := by
  obtain ⟨_, rfl⟩ := mergeField_eq_ok_iff.mp h
  exact Table.mem_keys_insert

theorem mem_keys_of_extend (h : schema.extend fields = .ok made) {key : String} :
    key ∈ Table.keys made.fields ↔ key ∈ Table.keys schema.fields ∨ key ∈ Table.keys fields := by
  induction fields generalizing schema with
  | nil =>
      obtain rfl : schema = made := by simpa [extend, pure, Except.pure] using h
      simp [Table.keys]
  | cons entry rest ih =>
      rw [extend, List.foldlM_cons] at h
      obtain ⟨next, hnext, hrest⟩ := Except.bind_eq_ok h
      rw [ih hrest, mem_keys_of_mergeField hnext, or_assoc]
      simp [Table.keys, eq_comm]

theorem fields_subset_of_addConstraint (h : schema.addConstraint constraint = .ok made) :
    constraint.fields ⊆ Table.keys schema.fields := by
  intro name hname
  unfold addConstraint at h
  split at h
  · contradiction
  · next hnone =>
      have hdeclared := List.find?_eq_none.mp hnone name hname
      rw [← Table.contains_eq_true_iff]
      simpa using hdeclared

/-- What composition gives to every schema that it makes. -/
structure WellMade (schema : Schema) : Prop where
  kinds : ∀ entry ∈ schema.fields, entry.2.kind.Composed
  constraints : ∀ constraint ∈ schema.constraints, constraint.fields ⊆ Table.keys schema.fields

theorem WellMade.mergeField (h : schema.WellMade) (hkind : field.kind.Composed)
    (hmade : schema.mergeField name field = .ok made) : made.WellMade := by
  constructor
  · obtain ⟨_, rfl⟩ := mergeField_eq_ok_iff.mp hmade
    intro entry hmem
    rcases Table.mem_insert hmem with rfl | hold
    · exact hkind
    · exact h.kinds entry hold
  · intro constraint hmem key hkey
    refine (mem_keys_of_mergeField hmade).mpr (.inl ?_)
    obtain ⟨_, rfl⟩ := mergeField_eq_ok_iff.mp hmade
    exact h.constraints constraint hmem hkey

theorem WellMade.extend (h : schema.WellMade) (hkinds : ∀ entry ∈ fields, entry.2.kind.Composed)
    (hmade : schema.extend fields = .ok made) : made.WellMade :=
  foldlM_invariant WellMade (fun _ entry _ hmem hwell hstep =>
    hwell.mergeField (hkinds entry hmem) hstep) h hmade

theorem WellMade.addConstraint (h : schema.WellMade)
    (hmade : schema.addConstraint constraint = .ok made) : made.WellMade := by
  have hnew := fields_subset_of_addConstraint hmade
  obtain rfl := addConstraint_eq_ok hmade
  refine ⟨h.kinds, fun found hmem => ?_⟩
  rcases List.mem_append.mp hmem with hold | hlast
  · exact h.constraints found hold
  · exact List.mem_singleton.mp hlast ▸ hnew

/-- The constraints of another schema mention fields that are merged along with them. -/
theorem WellMade.merge (h : schema.WellMade) (hother : other.WellMade)
    (hmade : schema.merge other = .ok made) : made.WellMade := by
  obtain ⟨extended, hextended, rfl⟩ := Except.map_eq_ok hmade
  have hwell := h.extend hother.kinds hextended
  refine ⟨hwell.kinds, fun constraint hmem => ?_⟩
  rcases OrderedSet.mem_foldl_add.mp hmem with hold | hnew
  · exact hwell.constraints constraint hold
  · exact fun key hkey =>
      (mem_keys_of_extend hextended).mpr (.inr (hother.constraints constraint hnew hkey))

end Schema

namespace Kind

variable {kind : Kind} {schema inner : Schema}

theorem Composed.wellMade (h : kind.Composed) (hnested : kind = .nested schema) :
    schema.WellMade := by
  induction h generalizing schema with
  | simple hsimple =>
      subst hnested
      simp [isSimple] at hsimple
  | sequenceOf => contradiction
  | empty name =>
      obtain rfl := Kind.nested.inj hnested
      exact ⟨by simp [Schema.empty], by simp [Schema.empty]⟩
  | rename _ name ih =>
      obtain rfl := Kind.nested.inj hnested
      exact ⟨(ih rfl).kinds, (ih rfl).constraints⟩
  | extend _ hkinds hmade ih =>
      obtain rfl := Kind.nested.inj hnested
      exact (ih rfl).extend hkinds hmade
  | addConstraint _ hmade ih =>
      obtain rfl := Kind.nested.inj hnested
      exact (ih rfl).addConstraint hmade
  | merge _ _ hmade ih ihother =>
      obtain rfl := Kind.nested.inj hnested
      exact (ih rfl).merge (ihother rfl) hmade

/-- The schemas in a composed kind are composed, however deep they stand. -/
theorem Composed.of_nests (h : kind.Composed) (hnests : kind.Nests inner) : inner.Composed := by
  induction hnests with
  | here => exact h
  | field hpresent _ ih => exact ih ((wellMade h rfl).kinds _ hpresent)
  | item _ ih =>
      cases h with
      | simple hsimple => simp [isSimple] at hsimple
      | sequenceOf hitem => exact ih hitem

end Kind

namespace Schema

variable {schema inner : Schema} {fields : Table String Field} {name : String}

theorem Composed.ofFields (hkinds : ∀ entry ∈ fields, entry.2.kind.Composed)
    (hmade : Schema.ofFields name fields = .ok schema) : schema.Composed :=
  .extend (.empty name) hkinds hmade

theorem Composed.define {catalog catalog' : Catalog} {base : Option Schema}
    (hbase : ∀ start, base = some start → start.Composed)
    (hkinds : ∀ entry ∈ fields, entry.2.kind.Composed)
    (hmade : catalog.define name fields base = .ok (schema, catalog')) : schema.Composed := by
  unfold Catalog.define at hmade
  split at hmade
  · contradiction
  · obtain ⟨extended, hextended, heq⟩ := Except.map_eq_ok hmade
    obtain ⟨rfl, _⟩ := Prod.mk.inj heq
    cases base with
    | none => exact .extend (.empty name) hkinds hextended
    | some start => exact .extend (.rename (hbase start rfl) name) hkinds hextended

/-- In a composed schema, and in every schema that stands in its kinds, constraints mention declared
fields only; and every default whose kind holds no supplied check is not `null` and is converted to
itself at any location, apart from the locations of mappings. -/
theorem settled_of_composed (h : schema.Composed) (hnests : (Kind.nested schema).Nests inner) :
    (∀ constraint ∈ inner.constraints, ∀ name ∈ constraint.fields,
      name ∈ Table.keys inner.fields) ∧
    ∀ name field value, (name, field) ∈ inner.fields → field.default = some value →
      field.kind.checks = [] →
        value ≠ .null ∧ ∀ path label, field.kind.Keeps path label value := by
  have hinner : inner.Composed := Kind.Composed.of_nests h hnests
  refine ⟨(Kind.Composed.wellMade hinner rfl).constraints, ?_⟩
  intro name field value hmem hdefault hchecks
  have hstored := hinner.sound.isStored hmem
  have hnormal : field.kind.Normal value := hstored.normal (by simp [hchecks]) hdefault
  exact ⟨hnormal.ne_null, fun _ _ => hnormal.keeps hstored.sound⟩

def speedLimit (most : Int64) : Schema :=
  ⟨"limit", [("max", .withDefault (.integer 0 most) (.integer 5))], []⟩

theorem composed_speedLimit {most : Int64}
    (hmade : Schema.ofFields "limit" [("max", .withDefault (.integer 0 most) (.text " 5"))] =
      .ok (speedLimit most)) : (speedLimit most).Composed := by
  refine Composed.ofFields (fun entry hmem => ?_) hmade
  obtain rfl := List.mem_singleton.mp hmem
  exact .simple rfl

/-- The schema of motors, whose limit may not be set without their power. -/
def motor : Schema :=
  ⟨"motor", [("power", .optional .anyInteger),
    ("limit", .withDefault (.nested (speedLimit 10))
      (.mapping (Path.root.field "limit") [("max", .integer 5)]))], [.requires "limit" "power"]⟩

theorem composed_motor : motor.Composed := by
  have hlimit : (speedLimit 10).Composed := composed_speedLimit (by with_unfolding_all rfl)
  have hfields : Schema.ofFields "motor" [("power", .optional .anyInteger),
      ("limit", .withDefault (.nested (speedLimit 10)) (.mapping .root []))] =
        .ok { motor with constraints := [] } := by
    with_unfolding_all rfl
  have hmade : { motor with constraints := [] }.addConstraint (.requires "limit" "power") =
      .ok motor := by
    with_unfolding_all rfl
  refine .addConstraint (Composed.ofFields (fun entry hmem => ?_) hfields) hmade
  simp only [List.mem_cons, List.not_mem_nil, or_false] at hmem
  rcases hmem with rfl | rfl
  · exact .simple rfl
  · exact hlimit

/-- Fans are motors with another limit, whose default is given as a text. -/
def fanFields : Table String Field :=
  [("limit", .withDefault (.nested (speedLimit 20)) (.mapping .root [("max", .text "17")]))]

def fan : Schema :=
  ⟨"fan", [("power", .optional .anyInteger),
    ("limit", .withDefault (.nested (speedLimit 20))
      (.mapping (Path.root.field "limit") [("max", .integer 17)]))], [.requires "limit" "power"]⟩

/-- The constraint of motors is settled for fans, and so are the default that fans have redefined
and the one inside of it. -/
theorem fan_settled :
    Catalog.empty.define "fan" fanFields (some motor) = .ok (fan, Catalog.empty.insert "fan" fan) ∧
    (Kind.nested fan).Nests fan ∧ (Kind.nested fan).Nests (speedLimit 20) ∧
    (∀ name ∈ (Constraint.requires "limit" "power").fields, name ∈ Table.keys fan.fields) ∧
    (∀ path label, (Kind.nested (speedLimit 20)).Keeps path label
      (.mapping (Path.root.field "limit") [("max", .integer 17)])) ∧
    ∀ path label, (Kind.integer 0 20).Keeps path label (.integer 5) := by
  have hlimit : (speedLimit 20).Composed := composed_speedLimit (by with_unfolding_all rfl)
  have hmade : Catalog.empty.define "fan" fanFields (some motor) =
      .ok (fan, Catalog.empty.insert "fan" fan) := by
    with_unfolding_all rfl
  have hfan : fan.Composed := by
    refine Composed.define (fun start hstart => ?_) (fun entry hmem => ?_) hmade
    · exact Option.some.inj hstart ▸ composed_motor
    · obtain rfl := List.mem_singleton.mp hmem
      exact hlimit
  have hnests : (Kind.nested fan).Nests (speedLimit 20) :=
    .field (.tail _ List.mem_cons_self) .here
  obtain ⟨hconstraints, hdefaults⟩ := settled_of_composed hfan .here
  obtain ⟨_, hinner⟩ := settled_of_composed hfan hnests
  exact ⟨hmade, .here, hnests, hconstraints _ List.mem_cons_self,
    (hdefaults "limit" _ _ (.tail _ List.mem_cons_self) rfl rfl).2,
    (hinner "max" _ _ List.mem_cons_self rfl rfl).2⟩

end Schema

end Firmware
