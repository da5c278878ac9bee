import Firmware.Proofs.Document
import Firmware.Proofs.Validation.Spread
/-!
Identifier slots of flat nodes.  Where no field of a schema has parts, the slots of a
validated node are values of its fields, and the kind of a field tells whether its slot
declares an identifier or refers to one, and of which type.  This takes a raw node without
slots of its own, which is what a JSON document holds.
-/

namespace Firmware

variable {path : Path} {name : String} {value given : Value} {slot : Slot} {raw node : Node}
  {found : Path × Slot} {f : Path → Slot → Slot}

namespace Value

theorem entrySlots_eq_nil {entries : List (String × Value)}
    (h : ∀ entry ∈ entries, ∀ place, entry.2.slots place = []) : entrySlots path entries = [] := by
  rw [entrySlots_eq_flatMap, List.flatMap_eq_nil_iff]
  exact fun entry hmem => h entry hmem _

mutual

/-- A value of a JSON document holds no slots. -/
theorem slots_ofJson (path place : Path) : ∀ json : Json, (ofJson path json).slots place = []
  | .integer value => by
      rw [ofJson]
      split <;> rfl
  | .array items => slots_of_itemsOfJson path place 0 0 items
  | .object entries => by
      rw [ofJson, slots]
      apply entrySlots_eq_nil
      intro entry hmem place
      exact slots_of_mem_entriesOfJson path place entries entry (Table.mem_of_mem_ofList hmem)
  | .null | .bool _ | .float _ | .text _ => rfl

theorem slots_of_itemsOfJson (path place : Path) (position start : Nat) :
    ∀ items : List Json, itemSlots place start (itemsOfJson path position items) = []
  | [] => rfl
  | item :: rest => by
      rw [itemsOfJson, itemSlots, slots_ofJson, slots_of_itemsOfJson, List.append_nil]

theorem slots_of_mem_entriesOfJson (path place : Path) :
    ∀ entries : List (String × Json), ∀ entry ∈ entriesOfJson path entries,
      entry.2.slots place = []
  | [] => by simp [entriesOfJson]
  | (key, value) :: rest => by
      intro entry hmem
      rcases List.mem_cons.mp hmem with rfl | hrest
      · exact slots_ofJson (path.field key) place value
      · exact slots_of_mem_entriesOfJson path place rest entry hrest

end

end Value

namespace Node

def IsRaw (node : Node) : Prop := ∀ entry ∈ node.entries, entry.2.slot? = none

theorem isRaw_of_slots (h : raw.slots = []) : raw.IsRaw := by
  rw [slots, Value.entrySlots_eq_flatMap, List.flatMap_eq_nil_iff] at h
  intro entry hmem
  have hnone := h entry hmem
  cases hvalue : entry.2 with
  | identifier slot => simp [hvalue, Value.slots] at hnone
  | _ => rfl

theorem IsRaw.slot?_of_given? (h : raw.IsRaw) (hgiven : raw.given? name = some given) :
    given.slot? = none := by
  obtain ⟨hpresent, _⟩ := Option.filter_eq_some_iff.mp hgiven
  exact h _ (Table.mem_of_get?_eq hpresent)

end Node

namespace Document

variable {json : Json} {document : Document} {kind : String} {nodes : List Node}

theorem slots_of_readNode (h : readNode path json = .ok node) : node.slots = [] := by
  unfold readNode Node.ofJson? at h
  cases json with
  | object entries =>
      obtain rfl := Except.ok.inj h
      apply Value.entrySlots_eq_nil
      intro entry hmem place
      exact Value.slots_of_mem_entriesOfJson path place entries entry
        (Table.mem_of_mem_ofList hmem)
  | null =>
      obtain rfl := Except.ok.inj h
      rfl
  | _ => simp at h

theorem slots_of_mem_readInstances (h : .ok node ∈ readInstances kind json) : node.slots = [] := by
  unfold readInstances at h
  split at h
  · obtain ⟨_, _, hread⟩ := List.mem_mapIdx.mp h
    exact slots_of_readNode hread
  · exact slots_of_readNode (List.mem_singleton.mp h).symm

theorem slots_of_ofJson (h : ofJson json = .ok document) (hlisted : (kind, nodes) ∈ document.kinds)
    (hmem : node ∈ nodes) : node.slots = [] := by
  unfold ofJson at h
  split at h
  · obtain ⟨_, rfl⟩ := Problem.settle_eq_ok_iff.mp h
    have hread := Table.mem_of_mem_ofList hlisted
    rw [List.map_map] at hread
    obtain ⟨entry, _, hentry⟩ := List.mem_map.mp hread
    obtain ⟨rfl, rfl⟩ := Prod.mk.inj hentry
    exact slots_of_mem_readInstances (mem_nodesOf hmem)
  · simp at h

theorem nodup_kinds_of_ofJson (h : ofJson json = .ok document) :
    (Table.keys document.kinds).Nodup := by
  unfold ofJson at h
  split at h
  · obtain ⟨_, rfl⟩ := Problem.settle_eq_ok_iff.mp h
    exact Table.nodup_keys_ofList _
  · simp at h

end Document

/-- Whether the slots of a kind declare, and the type they have. -/
def Kind.slotKind? : Kind → Option (Bool × String)
  | .declareId type _ => some (true, type)
  | .useId type => some (false, type)
  | _ => none

/-- The fields of a schema that hold slots: whether these declare, and their types. -/
def Schema.slotKinds (schema : Schema) : List (String × Bool × String) :=
  schema.fields.filterMap fun (name, field) => field.kind.slotKind?.map (name, ·)

/-- Whether the values of a field have no parts and come from the field's own kind, and
its default is no slot. -/
def Field.isPlain (field : Field) : Bool :=
  field.kind.isSimple && !field.kind.isCustom
    && field.default.all fun value => value.isScalar && value.slot?.isNone

def Schema.isPlain (schema : Schema) : Bool := schema.fields.all (·.2.isPlain)

theorem Kind.declares_or_uses_of_convert {kind : Kind} (hsimple : kind.isSimple = true)
    (hcustom : kind.isCustom = false)
    (h : kind.convert path name given = .ok (.identifier slot)) :
    (∃ type base, kind = .declareId type base) ∨ ∃ type, kind = .useId type := by
  cases kind with
  | declareId type base => exact .inl ⟨type, base, rfl⟩
  | useId type => exact .inr ⟨type, rfl⟩
  | nested | sequenceOf => simp [isSimple] at hsimple
  | custom => simp [isCustom] at hcustom
  | boolean | text | duration =>
      rw [convert] at h
      obtain ⟨_, _, hvalue⟩ := Except.map_eq_ok (Validation.located_eq_ok h)
      simp at hvalue
  | integer min max =>
      rw [convert] at h
      obtain ⟨_, _, hrange⟩ := Except.bind_eq_ok (Validation.located_eq_ok h)
      unfold inRange at hrange
      split at hrange <;> simp at hrange
  | float min max =>
      rw [convert] at h
      obtain ⟨_, _, hbounds⟩ := Except.bind_eq_ok (Validation.located_eq_ok h)
      unfold inBounds at hbounds
      split at hbounds <;> simp at hbounds
  | oneOf options =>
      rw [convert] at h
      obtain ⟨_, _, hchoice⟩ := Except.bind_eq_ok (Validation.located_eq_ok h)
      unfold choose at hchoice
      split at hchoice <;> simp at hchoice

/-- What a referring kind converts was a text, which is the name of the reference, or is a
reference already. -/
theorem Kind.convert_useId_cases {type : String}
    (h : (Kind.useId type).convert path name given = .ok value) :
    (∃ chosen, value = .identifier (.reference chosen type)) ∨
      ∃ slot, given = .identifier slot ∧ value = given := by
  rw [convert] at h
  obtain ⟨slot, hslot, rfl⟩ := Except.map_eq_ok (Validation.located_eq_ok h)
  unfold Value.asReference at hslot
  split at hslot
  · next chosen =>
      split at hslot
      · simp at hslot
      · obtain rfl := Except.ok.inj hslot
        exact .inl ⟨chosen, rfl⟩
  · obtain rfl := Except.ok.inj hslot
    exact .inr ⟨_, rfl, rfl⟩
  · simp at hslot

/-- A slot that a kind converts is of the kind's own sort and type. -/
theorem Kind.slotKind?_of_convert {kind : Kind} (hsimple : kind.isSimple = true)
    (hcustom : kind.isCustom = false) (hgiven : given.slot? = none)
    (h : kind.convert path name given = .ok (.identifier slot)) :
    kind.slotKind? = some (slot.declares, slot.type) := by
  rcases declares_or_uses_of_convert hsimple hcustom h with ⟨type, base, rfl⟩ | ⟨type, rfl⟩
  · obtain ⟨own, heq, hdeclares, htype⟩ := convert_declareId_eq_ok h
    obtain rfl := Value.identifier.inj heq
    rw [slotKind?, hdeclares, htype]
  · rcases convert_useId_cases h with ⟨chosen, heq⟩ | ⟨own, rfl, _⟩
    · obtain rfl := Value.identifier.inj heq
      rfl
    · simp [Value.slot?] at hgiven

namespace Schema

variable {schema : Schema}

/-- A value of a plain field has no parts, and if it is a slot then it is one of its
field. -/
theorem plain_of_validate (hplain : schema.isPlain = true) (hraw : raw.IsRaw)
    (h : schema.validate path raw = .ok node) (hentry : (name, value) ∈ node.entries) :
    value.isScalar = true ∧ ∀ slot, value = .identifier slot →
      (name, slot.declares, slot.type) ∈ schema.slotKinds := by
  obtain ⟨field, hfield, hresult⟩ := (mem_entries_of_validate h).mp hentry
  have hchecked := List.all_eq_true.mp hplain _ hfield
  simp only [Field.isPlain, Bool.and_eq_true, Bool.not_eq_true', Option.all_eq_true] at hchecked
  obtain ⟨⟨hsimple, hcustom⟩, hdefault⟩ := hchecked
  have hkinds : ∀ slot : Slot, field.kind.slotKind? = some (slot.declares, slot.type) →
      (name, slot.declares, slot.type) ∈ schema.slotKinds := fun slot hkind =>
    List.mem_filterMap.mpr ⟨_, hfield, by simp [hkind]⟩
  rcases Field.result_cases hresult with ⟨given, hgiven, hconvert⟩ | hsome | ⟨_, _, hkind, rfl⟩
  · refine ⟨Kind.isScalar_of_convert hsimple hcustom hconvert, ?_⟩
    rintro slot rfl
    exact hkinds slot
      (Kind.slotKind?_of_convert hsimple hcustom (hraw.slot?_of_given? hgiven) hconvert)
  · obtain ⟨hscalar, hslot⟩ := hdefault value hsome
    refine ⟨hscalar, ?_⟩
    rintro slot rfl
    simp [Value.slot?] at hslot
  · refine ⟨rfl, ?_⟩
    rintro slot ⟨⟩
    exact hkinds _ (by rw [hkind]; rfl)

/-- With slots replaced, the slots of a node are still values of its fields. -/
theorem exists_entry_of_mem_slots (hsound : schema.Sound) (hplain : schema.isPlain = true)
    (hraw : raw.IsRaw) (h : schema.validate path raw = .ok node)
    (hmem : found ∈ (node.mapSlots f).slots) :
    ∃ name, (node.mapSlots f).get? name = some (.identifier found.2) := by
  rw [Node.slots_mapSlots] at hmem
  obtain ⟨⟨at', slot⟩, hslot, rfl⟩ := List.mem_map.mp hmem
  obtain ⟨⟨name, value⟩, hentry, hinside⟩ := Value.mem_entrySlots.mp hslot
  have hscalar := (plain_of_validate hplain hraw h hentry).1
  have hkeys := hsound.names.sublist (keys_sublist_of_validate h)
  cases value with
  | identifier own =>
      obtain ⟨rfl, rfl⟩ := Prod.mk.inj (List.mem_singleton.mp hinside)
      refine ⟨name, ?_⟩
      rw [Node.get?_mapSlots, Node.get?, Table.get?_eq_of_mem hkeys hentry]
      rfl
  | mapping | sequence => simp [Value.isScalar] at hscalar
  | _ => simp [Value.slots] at hinside

/-- With slots replaced by others of their sort and type, the value of a field is a slot
only if the field holds slots of that sort and type. -/
theorem slotKind_of_get? (hplain : schema.isPlain = true) (hraw : raw.IsRaw)
    (h : schema.validate path raw = .ok node)
    (hkept : ∀ path slot, (f path slot).declares = slot.declares ∧ (f path slot).type = slot.type)
    (hget : (node.mapSlots f).get? name = some (.identifier slot)) :
    (name, slot.declares, slot.type) ∈ schema.slotKinds := by
  rw [Node.get?_mapSlots] at hget
  obtain ⟨value, hvalue, hmapped⟩ := Option.map_eq_some_iff.mp hget
  have hkinds := (plain_of_validate hplain hraw h (Table.mem_of_get?_eq hvalue)).2
  cases value with
  | identifier own =>
      rw [Value.mapSlots] at hmapped
      obtain rfl := Value.identifier.inj hmapped
      obtain ⟨hdeclares, htype⟩ := hkept (node.path.field name) own
      rw [hdeclares, htype]
      exact hkinds own rfl
  | _ => simp [Value.mapSlots] at hmapped

end Schema

end Firmware
