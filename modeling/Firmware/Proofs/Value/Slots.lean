import Firmware.Proofs.Table
import Firmware.Value.Slots
/-!
Identifier slots.  Replacing the slots of a value changes nothing else: the same
slots are found at the same locations, each replaced, and entries keep their keys.
-/

namespace Firmware

namespace Value

variable (f : Path → Slot → Slot)

mutual

theorem slots_mapSlots (path : Path) :
    ∀ value : Value, (value.mapSlots f path).slots path =
      (value.slots path).map fun found => (found.1, f found.1 found.2)
  | .identifier _ => rfl
  | .mapping own entries => entrySlots_mapEntrySlots own entries
  | .sequence items => itemSlots_mapItemSlots path 0 items
  | .null | .bool _ | .integer _ | .float _ | .text _ | .duration _ => rfl

theorem itemSlots_mapItemSlots (path : Path) (position : Nat) :
    ∀ items : List Value, itemSlots path position (mapItemSlots f path position items) =
      (itemSlots path position items).map fun found => (found.1, f found.1 found.2)
  | [] => rfl
  | item :: rest => by
      rw [mapItemSlots, itemSlots, itemSlots, List.map_append, slots_mapSlots,
        itemSlots_mapItemSlots]

theorem entrySlots_mapEntrySlots (path : Path) :
    ∀ entries : List (String × Value), entrySlots path (mapEntrySlots f path entries) =
      (entrySlots path entries).map fun found => (found.1, f found.1 found.2)
  | [] => rfl
  | (key, value) :: rest => by
      rw [mapEntrySlots, entrySlots, entrySlots, List.map_append, slots_mapSlots,
        entrySlots_mapEntrySlots]

end

theorem mapEntrySlots_eq_map (path : Path) (entries : List (String × Value)) :
    mapEntrySlots f path entries =
      entries.map fun entry => (entry.1, entry.2.mapSlots f (path.field entry.1)) := by
  induction entries with
  | nil => rfl
  | cons entry rest ih => rw [mapEntrySlots, ih, List.map_cons]

theorem mem_entrySlots {path : Path} {entries : List (String × Value)} {found : Path × Slot} :
    found ∈ entrySlots path entries ↔
      ∃ entry ∈ entries, found ∈ entry.2.slots (path.field entry.1) := by
  induction entries with
  | nil => simp [entrySlots]
  | cons entry rest ih => simp [entrySlots, ih]

/-- Whether a slot stands in a value, at any depth. -/
inductive Holds (slot : Slot) : Value → Prop
  | here : Holds slot (.identifier slot)
  | entry {own : Path} {entries : List (String × Value)} {key : String} {value : Value}
      (present : (key, value) ∈ entries) (below : Holds slot value) :
      Holds slot (.mapping own entries)
  | item {items : List Value} {value : Value} (present : value ∈ items)
      (below : Holds slot value) : Holds slot (.sequence items)

/-- A slot that stands in an item is found among those of a sequence, wherever it begins. -/
theorem exists_mem_itemSlots {slot : Slot} {item : Value} {items : List Value} (path : Path)
    (position : Nat) (hmem : item ∈ items)
    (h : ∀ path, ∃ place, (place, slot) ∈ item.slots path) :
    ∃ place, (place, slot) ∈ itemSlots path position items := by
  induction items generalizing position with
  | nil => contradiction
  | cons first rest ih =>
      rw [itemSlots]
      rcases List.mem_cons.mp hmem with rfl | hlater
      · obtain ⟨place, hplace⟩ := h (path.index position)
        exact ⟨place, List.mem_append_left _ hplace⟩
      · obtain ⟨place, hplace⟩ := ih (position + 1) hlater
        exact ⟨place, List.mem_append_right _ hplace⟩

theorem Holds.exists_mem_slots {slot : Slot} {value : Value} (h : Holds slot value)
    (path : Path) : ∃ place, (place, slot) ∈ value.slots path := by
  induction h generalizing path with
  | here => exact ⟨path, List.mem_singleton.mpr rfl⟩
  | @entry own entries key value hpresent _ ih =>
      obtain ⟨place, hplace⟩ := ih (own.field key)
      exact ⟨place, mem_entrySlots.mpr ⟨_, hpresent, hplace⟩⟩
  | item hpresent _ ih => exact exists_mem_itemSlots path 0 hpresent ih

mutual

theorem holds_of_mem_slots {slot : Slot} {place path : Path} :
    ∀ {value : Value}, (place, slot) ∈ value.slots path → Holds slot value
  | .identifier _, hmem => by
      obtain ⟨-, rfl⟩ := Prod.mk.inj (List.mem_singleton.mp hmem)
      exact .here
  | .mapping _ _, hmem => by
      obtain ⟨_, _, hpresent, hbelow⟩ := exists_holds_of_mem_entrySlots hmem
      exact .entry hpresent hbelow
  | .sequence _, hmem => by
      obtain ⟨_, hpresent, hbelow⟩ := exists_holds_of_mem_itemSlots hmem
      exact .item hpresent hbelow

theorem exists_holds_of_mem_itemSlots {slot : Slot} {place path : Path} {position : Nat} :
    ∀ {items : List Value}, (place, slot) ∈ itemSlots path position items →
      ∃ item ∈ items, Holds slot item
  | _ :: _, hmem => by
      rcases List.mem_append.mp hmem with hfirst | hlater
      · exact ⟨_, List.mem_cons_self, holds_of_mem_slots hfirst⟩
      · obtain ⟨item, hpresent, hbelow⟩ := exists_holds_of_mem_itemSlots hlater
        exact ⟨item, .tail _ hpresent, hbelow⟩

theorem exists_holds_of_mem_entrySlots {slot : Slot} {place path : Path} :
    ∀ {entries : List (String × Value)}, (place, slot) ∈ entrySlots path entries →
      ∃ key value, (key, value) ∈ entries ∧ Holds slot value
  | (key, value) :: _, hmem => by
      rcases List.mem_append.mp hmem with hfirst | hlater
      · exact ⟨key, value, List.mem_cons_self, holds_of_mem_slots hfirst⟩
      · obtain ⟨key, value, hpresent, hbelow⟩ := exists_holds_of_mem_entrySlots hlater
        exact ⟨key, value, .tail _ hpresent, hbelow⟩

end

end Value

namespace Node

variable {f : Path → Slot → Slot} {node : Node} {name : String}

theorem slots_mapSlots (f : Path → Slot → Slot) (node : Node) :
    (node.mapSlots f).slots = node.slots.map fun found => (found.1, f found.1 found.2) :=
  Value.entrySlots_mapEntrySlots f node.path node.entries

theorem flatMap_slots_mapSlots (f : Path → Slot → Slot) (nodes : List Node) :
    (nodes.map (mapSlots f)).flatMap slots =
      (nodes.flatMap slots).map fun found => (found.1, f found.1 found.2) := by
  rw [List.flatMap_map, List.map_flatMap]
  congr 1
  funext node
  exact slots_mapSlots f node

theorem get?_mapSlots (f : Path → Slot → Slot) (node : Node) (key : String) :
    (node.mapSlots f).get? key =
      (node.get? key).map (Value.mapSlots f (node.path.field key)) := by
  obtain ⟨path, entries⟩ := node
  simp only [mapSlots, get?, Value.mapEntrySlots_eq_map]
  induction entries with
  | nil => rfl
  | cons entry rest ih =>
      rw [List.map_cons, Table.get?_cons, Table.get?_cons, ih]
      split
      · next heq => rw [heq, Option.map_some]
      · rfl

theorem mem_declarations :
    name ∈ node.declarations ↔
      ∃ found ∈ node.slots, found.2.declares = true ∧ found.2.name = some name := by
  simp only [declarations, List.mem_filterMap, Option.ite_none_right_eq_some]

theorem mem_references :
    name ∈ node.references ↔
      ∃ found ∈ node.slots, found.2.declares = false ∧ found.2.name = some name := by
  simp only [references, List.mem_filterMap, Option.ite_none_left_eq_some, Bool.not_eq_true]

def Holds (node : Node) (slot : Slot) : Prop := Value.Holds slot node.toValue

theorem exists_holds_iff (node : Node) (test : Slot → Prop) :
    (∃ slot, node.Holds slot ∧ test slot) ↔ ∃ found ∈ node.slots, test found.2 := by
  constructor
  · rintro ⟨slot, hholds, htest⟩
    obtain ⟨place, hmem⟩ := Value.Holds.exists_mem_slots hholds node.path
    exact ⟨(place, slot), hmem, htest⟩
  · rintro ⟨⟨place, slot⟩, hmem, htest⟩
    have hmem' : (place, slot) ∈ node.toValue.slots node.path := hmem
    exact ⟨slot, Value.holds_of_mem_slots hmem', htest⟩

def Declares (node : Node) (name : String) : Prop :=
  ∃ slot, node.Holds slot ∧ slot.declares = true ∧ slot.name = some name

def RefersTo (node : Node) (name : String) : Prop :=
  ∃ slot, node.Holds slot ∧ slot.declares = false ∧ slot.name = some name

theorem mem_declarations_iff_declares : name ∈ node.declarations ↔ node.Declares name := by
  rw [mem_declarations, Declares, exists_holds_iff]

theorem mem_references_iff_refersTo : name ∈ node.references ↔ node.RefersTo name := by
  rw [mem_references, RefersTo, exists_holds_iff]

theorem mem_slots_of_get? {key : String} {slot : Slot}
    (h : node.get? key = some (.identifier slot)) : (node.path.field key, slot) ∈ node.slots :=
  Value.mem_entrySlots.mpr ⟨_, Table.mem_of_get?_eq h, List.mem_singleton.mpr rfl⟩

end Node

end Firmware
