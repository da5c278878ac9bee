import Firmware.Proofs.Validation.Problems
import Firmware.Proofs.Validation.Slots
import Firmware.Proofs.Value.Unplaced
/-!
Complete values: every reference in them has its name.  A conversion makes references of
texts, which become their names, so it keeps values complete; a JSON document holds no slots
at all.  References of a validated node can therefore lack a name only if a default does.
-/

namespace Firmware

/-- Whether a slot is a declaration, which will be named, or a reference that has its
name. -/
def Slot.isComplete (slot : Slot) : Bool := slot.declares || slot.name.isSome

theorem Slot.isComplete_of_declares {slot : Slot} (h : slot.declares = true) :
    slot.isComplete = true := by
  rw [isComplete, h, Bool.true_or]

theorem Slot.exists_name_of_isComplete {slot : Slot} (h : slot.isComplete = true)
    (hrefers : slot.declares = false) : ∃ name, slot.name = some name := by
  rw [isComplete, hrefers, Bool.false_or] at h
  exact Option.isSome_iff_exists.mp h

namespace Value

variable {path : Path} {value : Value} {slot : Slot}

def isComplete (value : Value) : Bool :=
  (value.slots Path.root).all fun found => found.2.isComplete

theorem isComplete_iff (path : Path) :
    value.isComplete = true ↔ ∀ found ∈ value.slots path, found.2.isComplete = true := by
  have hmoved : value.isComplete = ((value.slots path).map (·.2)).all Slot.isComplete := by
    rw [isComplete, map_slots_eq rfl path Path.root, List.all_map]
    rfl
  rw [hmoved, List.all_map, List.all_eq_true]
  rfl

theorem isComplete_identifier : (Value.identifier slot).isComplete = slot.isComplete := by
  simp [isComplete, slots]

theorem isComplete_mapping {entries : List (String × Value)} :
    (Value.mapping path entries).isComplete = true ↔
      ∀ entry ∈ entries, entry.2.isComplete = true := by
  rw [isComplete_iff path, slots]
  constructor
  · intro h entry hmem
    rw [isComplete_iff (path.field entry.1)]
    intro found hfound
    exact h found (mem_entrySlots.mpr ⟨entry, hmem, hfound⟩)
  · intro h found hfound
    obtain ⟨entry, hmem, hin⟩ := mem_entrySlots.mp hfound
    exact (isComplete_iff _).mp (h entry hmem) found hin

theorem isComplete_sequence {items : List Value} :
    (Value.sequence items).isComplete = true ↔ ∀ item ∈ items, item.isComplete = true := by
  rw [isComplete_iff Path.root, slots, itemSlots_eq_flatMap]
  constructor
  · intro h item hmem
    obtain ⟨position, hitem⟩ := List.mem_iff_getElem?.mp hmem
    rw [isComplete_iff (Path.root.index position)]
    intro found hfound
    apply h found
    exact List.mem_flatMap.mpr
      ⟨(item, position), List.mem_zipIdx_iff_getElem?.mpr hitem, hfound⟩
  · intro h found hfound
    obtain ⟨⟨item, position⟩, hmem, hin⟩ := List.mem_flatMap.mp hfound
    have hitem := List.mem_of_getElem? (List.mem_zipIdx_iff_getElem?.mp hmem)
    exact (isComplete_iff _).mp (h item hitem) found hin

theorem isComplete_of_mem_items {item : Value} (h : value.isComplete = true)
    (hmem : item ∈ value.items) : item.isComplete = true := by
  cases value with
  | sequence items => exact isComplete_sequence.mp h item hmem
  | _ => exact List.mem_singleton.mp hmem ▸ h

end Value

variable {path : Path} {name : String} {given value : Value} {raw node : Node}

theorem Node.isComplete_iff :
    node.toValue.isComplete = true ↔ ∀ found ∈ node.slots, found.2.isComplete = true :=
  Value.isComplete_iff node.path

theorem Node.isComplete_of_given? (h : raw.toValue.isComplete = true)
    (hgiven : raw.given? name = some given) : given.isComplete = true := by
  obtain ⟨hpresent, _⟩ := Option.filter_eq_some_iff.mp hgiven
  exact Value.isComplete_mapping.mp h _ (Table.mem_of_get?_eq hpresent)

/-- Whether the references in the defaults of a schema all have names, at every depth. -/
def Schema.hasCompleteDefaults (schema : Schema) : Bool :=
  schema.every (fun _ => true) Value.isComplete

namespace Kind

/-- Of a complete value, a kind without parts makes a complete one. -/
theorem isComplete_of_isSimple {kind : Kind} (hsimple : kind.isSimple = true)
    (hcustom : kind.isCustom = false) (hgiven : given.isComplete = true)
    (h : kind.convert path name given = .ok value) : value.isComplete = true := by
  have hscalar := isScalar_of_convert hsimple hcustom h
  cases value with
  | mapping | sequence => simp [Value.isScalar] at hscalar
  | identifier slot =>
      rcases declares_or_uses_of_convert hsimple hcustom h with ⟨type, base, rfl⟩ | ⟨type, rfl⟩
      · obtain ⟨own, heq, hdeclares, _⟩ := convert_declareId_eq_ok h
        obtain rfl := Value.identifier.inj heq
        rw [Value.isComplete_identifier]
        exact Slot.isComplete_of_declares hdeclares
      · rcases convert_useId_cases h with ⟨chosen, heq⟩ | ⟨_, _, rfl⟩
        · rw [heq]
          rfl
        · exact hgiven
  | _ => rfl

end Kind

theorem Schema.isComplete_of_validate {schema : Schema}
    (hdefaults : ∀ entry ∈ schema.fields, ∀ value, entry.2.default = some value →
      value.isComplete = true)
    (hkinds : ∀ entry ∈ schema.fields, ∀ given value, given.isComplete = true →
      entry.2.kind.convert (path.field entry.1) entry.1 given = .ok value →
        value.isComplete = true)
    (hraw : raw.toValue.isComplete = true) (h : schema.validate path raw = .ok node) :
    node.toValue.isComplete = true := by
  apply Value.isComplete_mapping.mpr
  rintro ⟨key, value⟩ hmem
  obtain ⟨field, hfield, hresult⟩ := (mem_entries_of_validate h).mp hmem
  rcases Field.result_cases hresult with ⟨given, hgiven, hconvert⟩ | hdefault | ⟨_, _, _, rfl⟩
  · exact hkinds (key, field) hfield given value (Node.isComplete_of_given? hraw hgiven) hconvert
  · exact hdefaults (key, field) hfield value hdefault
  · rfl

/-- A conversion keeps values complete. -/
theorem Kind.Sound.isComplete_of_convert {kind : Kind} (hsound : kind.Sound)
    (hcustom : kind.every (fun kind => !kind.isCustom) (fun _ => true) = true)
    (hdefaults : kind.every (fun _ => true) Value.isComplete = true)
    (hgiven : given.isComplete = true) (h : kind.convert path name given = .ok value) :
    value.isComplete = true := by
  induction hsound generalizing path name given value with
  | simple hsimple =>
      rw [every_of_isSimple hsimple, Bool.not_eq_true'] at hcustom
      exact isComplete_of_isSimple hsimple hcustom hgiven h
  | sequenceOf _ ih =>
      rw [every] at hcustom hdefaults
      obtain ⟨items, rfl, _, hitems⟩ := convert_sequenceOf_eq_ok h
      apply Value.isComplete_sequence.mpr
      intro item hmem
      obtain ⟨position, hitem⟩ := List.mem_iff_getElem?.mp hmem
      obtain ⟨old, hold, hconvert⟩ := hitems position item hitem
      have hin := Value.isComplete_of_mem_items hgiven (List.mem_of_getElem? hold)
      exact ih hcustom hdefaults hin hconvert
  | nested hnames _ _ ih =>
      rw [every] at hcustom hdefaults
      obtain ⟨raw, node, rfl, hvalid, rfl⟩ := convert_nested_eq_ok h
      apply Schema.isComplete_of_validate ?_ ?_ hgiven hvalid
      · intro entry hmem
        exact (Schema.every_of_mem hdefaults hmem).1
      · intro entry hmem given value hin hconvert
        exact ih entry hmem (Schema.every_of_mem hcustom hmem).2
          (Schema.every_of_mem hdefaults hmem).2 hin hconvert

/-- Without supplied checks, and with complete defaults, every reference of a validated node
has a name if the raw node holds no slots. -/
theorem Schema.Sound.isComplete_of_validate {schema : Schema} (hsound : schema.Sound)
    (hcustom : schema.isCustomFree = true) (hdefaults : schema.hasCompleteDefaults = true)
    (hraw : raw.slots = []) (h : schema.validate path raw = .ok node) :
    ∀ found ∈ node.slots, found.2.isComplete = true := by
  rw [← Node.isComplete_iff]
  apply Schema.isComplete_of_validate ?_ ?_ ?_ h
  · intro entry hmem
    exact (every_of_mem hdefaults hmem).1
  · intro entry hmem given value hgiven hconvert
    exact (hsound.kinds entry hmem).isComplete_of_convert (every_of_mem hcustom hmem).2
      (every_of_mem hdefaults hmem).2 hgiven hconvert
  · rw [Node.isComplete_iff, hraw]
    simp

theorem Schema.exists_entry_of_declareId {schema : Schema} {field : Field} {type : String}
    {base : Option String} (h : schema.validate path raw = .ok node)
    (hfield : (name, field) ∈ schema.fields) (hkind : field.kind = .declareId type base) :
    ∃ value, (name, value) ∈ node.entries := by
  obtain ⟨hproblems, _⟩ := validate_eq_ok h
  obtain ⟨outcome, hresult⟩ := exists_result_of_problemsOf hproblems hfield
  cases outcome with
  | some value => exact ⟨value, (mem_entries_of_validate h).mpr ⟨field, hfield, hresult⟩⟩
  | none =>
      unfold Field.result at hresult
      split at hresult
      · obtain ⟨_, _, hsome⟩ := Except.map_eq_ok hresult
        contradiction
      · rw [hkind] at hresult
        unfold Kind.absent at hresult
        split at hresult
        · contradiction
        · cases hdefault : field.default <;> simp [hdefault] at hresult

end Firmware
