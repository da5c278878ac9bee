import Firmware.Builtin.Component
import Firmware.Proofs.Generator.Listing
/-!
The registry of the hub and the sensors.  Building it succeeds, and its schemas are plain:
the hub declares its variable and refers to nothing, and a sensor declares its variable
and refers to at most one hub.
-/

namespace Firmware

namespace Builtin

def hubFields : Table String Field :=
  [(Role.setupPriority, .optional .anyFloat),
    (Schema.idFieldName, .optional (.declareId hubType none))]

def sensorFields : Table String Field :=
  [(Schema.idFieldName, .optional (.declareId sensorType (some "sensor"))),
    ("name", .optional .text),
    ("internal", .withDefault .boolean (.bool false)),
    ("unit_of_measurement", .withDefault .text (.text "")),
    ("icon", .withDefault .text (.text "")),
    ("accuracy_decimals", .withDefault (.integer (-3) 8) (.integer 2)),
    ("state_class", .withDefault (.oneOf stateClasses) (.text "measurement")),
    ("device_class", .withDefault .text (.text "")),
    ("force_update", .withDefault .boolean (.bool false)),
    ("expire_after", .optional .duration),
    (Role.setupPriority, .optional .anyFloat),
    (parentField, .optional (.useId hubType))]

def hubComponent : Component where
  declaration :=
    { Declaration.ofSchema hubKind ⟨hubKind, hubFields, []⟩ with
      capabilities := [.schedulable]
      isMulti := false }
  routine := hubRoutine
  observed := false

def sensorComponent : Component where
  declaration :=
    { Declaration.ofSchema sensorKind ⟨sensorKind, sensorFields, []⟩ with
      dependencies := [hubKind]
      capabilities := [.measurable, .schedulable] }
  routine := sensorRoutine
  observed := false

def registry : Components := ⟨[(hubKind, hubComponent), (sensorKind, sensorComponent)]⟩

theorem components_eq : components = .ok registry := by
  with_unfolding_all rfl

theorem find_registry_cases {kind : String} {component : Component}
    (h : registry.find kind = .ok component) :
    component = hubComponent ∨ component = sensorComponent := by
  have hmem := Table.mem_of_get?_eq (Components.find_eq_ok_iff.mp h)
  simp only [registry, List.mem_cons, List.not_mem_nil, or_false] at hmem
  exact hmem.imp (fun heq => (Prod.mk.inj heq).2) fun heq => (Prod.mk.inj heq).2

theorem registered_registry : registry.Registered := by
  have hhub : hubComponent.declaration.schema.Composed :=
    Schema.composed_of_extend hubFields rfl (by with_unfolding_all rfl)
  have hsensor : sensorComponent.declaration.schema.Composed :=
    Schema.composed_of_extend sensorFields rfl (by with_unfolding_all rfl)
  have hfirst : Components.empty.add hubComponent = .ok ⟨[(hubKind, hubComponent)]⟩ := by
    with_unfolding_all rfl
  have hsecond : Components.add ⟨[(hubKind, hubComponent)]⟩ sensorComponent = .ok registry := by
    with_unfolding_all rfl
  exact .add (.add .empty hhub hfirst) hsensor hsecond

/-- What holds of the schemas of the hub and of the sensors holds of all. -/
theorem everySchema_registry {test : Schema → Bool}
    (hhub : test hubComponent.declaration.schema = true)
    (hsensor : test sensorComponent.declaration.schema = true) : registry.EverySchema test := by
  intro kind component hfound
  rcases find_registry_cases hfound with rfl | rfl
  · exact hhub
  · exact hsensor

/-- An instance of a component: its variable is a pointer of some type, which the usual field
names. -/
structure IsOf (component : Component) (type : String) (inst : Instance) : Prop where
  declaration : inst.declaration = component.declaration
  type : inst.id.type = type
  pointer : inst.id.isPointer = true
  named : inst.config.slotName? Schema.idFieldName = some inst.id.name

theorem IsOf.id_eq {component : Component} {type : String} {inst : Instance}
    (h : IsOf component type inst) : inst.id = ⟨inst.id.name, type, true⟩ := by
  rw [← h.type, ← h.pointer]

abbrev IsHub : Instance → Prop := IsOf hubComponent hubType

abbrev IsSensor : Instance → Prop := IsOf sensorComponent sensorType

theorem mem_slotKinds_hub {key type : String} {declares : Bool} :
    (key, declares, type) ∈ hubComponent.declaration.schema.slotKinds ↔
      key = Schema.idFieldName ∧ declares = true ∧ type = hubType := by
  have hkinds : hubComponent.declaration.schema.slotKinds =
      [(Schema.idFieldName, true, hubType)] := rfl
  simp [hkinds]

theorem mem_slotKinds_sensor {key type : String} {declares : Bool} :
    (key, declares, type) ∈ sensorComponent.declaration.schema.slotKinds ↔
      key = Schema.idFieldName ∧ declares = true ∧ type = sensorType ∨
        key = parentField ∧ declares = false ∧ type = hubType := by
  have hkinds : sensorComponent.declaration.schema.slotKinds =
      [(Schema.idFieldName, true, sensorType), (parentField, false, hubType)] := rfl
  simp [hkinds]

theorem typesMatch_sensor_hub : typesMatch sensorType hubType = false := by
  decide +kernel

section Plan

variable {generator : Generator} {json : Json} {document : Document} {names : NameTable}
  {ordered : Ordered} {inst : Instance} {name : String}
  (hcomponents : generator.components = registry)
  (hdocument : Document.ofJson json = .ok document)
  (hplan : generator.plan document = .ok (names, ordered)) (hmem : inst ∈ ordered.instances)

include hcomponents hplan hmem

theorem isHub_or_isSensor : IsHub inst ∨ IsSensor inst := by
  obtain ⟨candidate, _, _, _, component, key, type, name, hvalidates, hid, hname, rfl⟩ :=
    Generator.exists_candidate_of_plan hplan hmem
  have hfound := hvalidates.found
  rw [hcomponents] at hfound
  rcases find_registry_cases hfound with rfl | rfl
  · obtain ⟨rfl, rfl⟩ := Prod.mk.inj (Option.some.inj hid)
    exact .inl ⟨rfl, rfl, rfl, hname⟩
  · obtain ⟨rfl, rfl⟩ := Prod.mk.inj (Option.some.inj hid)
    exact .inr ⟨rfl, rfl, rfl, hname⟩

include hdocument

theorem slotKind_of_get? {key : String} {slot : Slot}
    (hget : inst.config.get? key = some (.identifier slot)) :
    (key, slot.declares, slot.type) ∈ inst.declaration.schema.slotKinds :=
  Generator.slotKind_of_get? (hcomponents ▸ everySchema_registry rfl rfl) hdocument hplan hmem hget

/-- The slots of a planned instance are values of its fields, of the sort and type that the
schema tells. -/
theorem exists_slotKind_of_mem_slots {found : Path × Slot} (hslot : found ∈ inst.config.slots) :
    ∃ key, inst.config.get? key = some (.identifier found.2) ∧
      (key, found.2.declares, found.2.type) ∈ inst.declaration.schema.slotKinds := by
  obtain ⟨key, hget⟩ := Generator.exists_entry_of_mem_slots
    (hcomponents ▸ everySchema_registry rfl rfl) hdocument hplan hmem
    (hcomponents ▸ registered_registry) hslot
  exact ⟨key, hget, slotKind_of_get? hcomponents hdocument hplan hmem hget⟩

theorem slot_of_isHub (h : IsHub inst) {found : Path × Slot} (hslot : found ∈ inst.config.slots) :
    inst.config.get? Schema.idFieldName = some (.identifier found.2) ∧
      found.2.declares = true := by
  obtain ⟨key, hget, hkind⟩ := exists_slotKind_of_mem_slots hcomponents hdocument hplan hmem hslot
  rw [h.declaration, mem_slotKinds_hub] at hkind
  obtain ⟨rfl, hdeclares, _⟩ := hkind
  exact ⟨hget, hdeclares⟩

theorem slot_of_isSensor (h : IsSensor inst) {found : Path × Slot}
    (hslot : found ∈ inst.config.slots) :
    found.2.declares = true ∧ found.2.type = sensorType ∨
      found.2.declares = false ∧ found.2.type = hubType := by
  obtain ⟨key, _, hkind⟩ := exists_slotKind_of_mem_slots hcomponents hdocument hplan hmem hslot
  rw [h.declaration, mem_slotKinds_sensor] at hkind
  exact hkind.imp And.right And.right

theorem references_of_isHub (h : IsHub inst) : inst.config.references = [] := by
  refine List.eq_nil_iff_forall_not_mem.mpr fun name hname => ?_
  obtain ⟨found, hslot, hrefers, _⟩ := Node.mem_references.mp hname
  have hdeclares := (slot_of_isHub hcomponents hdocument hplan hmem h hslot).2
  simp [hrefers] at hdeclares

theorem eq_of_mem_declarations (h : IsHub inst) (hname : name ∈ inst.config.declarations) :
    name = inst.id.name := by
  obtain ⟨found, hslot, _, hdeclared⟩ := Node.mem_declarations.mp hname
  obtain ⟨hget, _⟩ := slot_of_isHub hcomponents hdocument hplan hmem h hslot
  have hnamed := h.named
  simp only [Node.slotName?, hget, Option.bind_some, Value.slot?, hdeclared] at hnamed
  exact Option.some.inj hnamed

/-- A planned instance refers to nothing but the hub. -/
theorem exists_isHub_of_reference (hname : name ∈ inst.config.references) :
    ∃ hub ∈ ordered.instances, IsHub hub ∧ hub.id.name = name := by
  obtain ⟨found, hslot, hrefers, hnamed⟩ := Node.mem_references.mp hname
  have htype : found.2.type = hubType := by
    rcases isHub_or_isSensor hcomponents hplan hmem with hhub | hsensor
    · simp [references_of_isHub hcomponents hdocument hplan hmem hhub] at hname
    · rcases slot_of_isSensor hcomponents hdocument hplan hmem hsensor hslot with
        ⟨hdeclares, _⟩ | ⟨_, htype⟩
      · simp [hrefers] at hdeclares
      · exact htype
  obtain ⟨other, hother, declared, hdeclared, hdeclares, hname, hmatch⟩ :=
    Generator.exists_declaration_of_reference hplan hmem hslot hrefers hnamed
  rcases isHub_or_isSensor hcomponents hplan hother with hhub | hsensor
  · have hdeclaration := Node.mem_declarations.mpr ⟨declared, hdeclared, hdeclares, hname⟩
    exact ⟨other, hother, hhub,
      (eq_of_mem_declarations hcomponents hdocument hplan hother hhub hdeclaration).symm⟩
  · rcases slot_of_isSensor hcomponents hdocument hplan hother hsensor hdeclared with
      ⟨_, hsensorType⟩ | ⟨hrefers, _⟩
    · rw [htype, hsensorType, typesMatch_sensor_hub] at hmatch
      simp at hmatch
    · simp [hdeclares] at hrefers

/-- The parent of a planned instance is a variable it refers to. -/
theorem mem_references_of_parent (hparent : inst.config.slotName? parentField = some name) :
    name ∈ inst.config.references := by
  obtain ⟨slot, hslot, hname⟩ := Option.bind_eq_some_iff.mp hparent
  obtain ⟨value, hget, hvalue⟩ := Option.bind_eq_some_iff.mp hslot
  cases value with
  | identifier own =>
      obtain rfl := Option.some.inj hvalue
      have hkind := slotKind_of_get? hcomponents hdocument hplan hmem hget
      have hne : parentField ≠ Schema.idFieldName := by decide
      refine Node.mem_references.mpr ⟨_, Node.mem_slots_of_get? hget, ?_, hname⟩
      rcases isHub_or_isSensor hcomponents hplan hmem with hhub | hsensor
      · rw [hhub.declaration, mem_slotKinds_hub] at hkind
        exact absurd hkind.1 hne
      · rw [hsensor.declaration, mem_slotKinds_sensor] at hkind
        rcases hkind with ⟨heq, _⟩ | ⟨_, hrefers, _⟩
        · exact absurd heq hne
        · exact hrefers
  | _ => simp [Value.slot?] at hvalue

end Plan

end Builtin

end Firmware
