import Firmware.Proofs.NameTable.Resolution
import Firmware.Proofs.Value.Spread
/-!
The content of values: what is left of them when the locations of mappings are
disregarded.  Naming changes nothing in a value without declarations that wait.
-/

namespace Firmware

namespace Value

mutual

/-- A value with every mapping moved to the root of the document. -/
def content : Value → Value
  | .mapping _ entries => .mapping .root (entriesContent entries)
  | .sequence items => .sequence (itemsContent items)
  | .null => .null
  | .bool value => .bool value
  | .integer value => .integer value
  | .float value => .float value
  | .text value => .text value
  | .identifier slot => .identifier slot
  | .duration milliseconds => .duration milliseconds
termination_by structural value => value

def itemsContent : List Value → List Value
  | [] => []
  | item :: rest => item.content :: itemsContent rest
termination_by structural items => items

def entriesContent : List (String × Value) → List (String × Value)
  | [] => []
  | (key, value) :: rest => (key, value.content) :: entriesContent rest
termination_by structural entries => entries

end

theorem itemsContent_eq_map (items : List Value) : itemsContent items = items.map content := by
  induction items with
  | nil => rfl
  | cons item rest ih => rw [itemsContent, ih, List.map_cons]

theorem entriesContent_eq_map (entries : List (String × Value)) :
    entriesContent entries = entries.map fun entry => (entry.1, entry.2.content) := by
  induction entries with
  | nil => rfl
  | cons entry rest ih => rw [entriesContent, ih, List.map_cons]

/-- A value without parts is its own content, and the content of no other value. -/
theorem eq_of_content_eq {scalar value : Value} (h : scalar.isScalar = true)
    (hsame : scalar.content = value.content) : value = scalar := by
  cases scalar with
  | mapping | sequence => simp [isScalar] at h
  | _ => cases value <;> simp_all [content]

theorem keys_entriesContent (entries : List (String × Value)) :
    Table.keys (entriesContent entries) = Table.keys entries := by
  rw [entriesContent_eq_map, Table.keys, List.map_map]
  rfl

theorem get?_entriesContent (entries : List (String × Value)) (key : String) :
    Table.get? (entriesContent entries) key = (Table.get? entries key).map content := by
  induction entries with
  | nil => rfl
  | cons entry rest ih =>
      rw [entriesContent, Table.get?_cons, Table.get?_cons, ih]
      split <;> rfl

/-- Whether no declaration inside a value waits for its name. -/
def IsNamed (value : Value) : Prop :=
  ∀ path, ∀ found ∈ value.slots path, found.2.waits = false

variable {f : Path → Slot → Slot}

mutual

/-- Nothing changes when every slot stays as it is. -/
theorem mapSlots_eq_self (path : Path) : ∀ {value : Value},
    (∀ found ∈ value.slots path, f found.1 found.2 = found.2) → value.mapSlots f path = value
  | .identifier slot, h => congrArg _ (h (path, slot) (List.mem_singleton.mpr rfl))
  | .mapping own _, h => congrArg _ (mapEntrySlots_eq_self own h)
  | .sequence _, h => congrArg _ (mapItemSlots_eq_self path 0 h)
  | .null, _ | .bool _, _ | .integer _, _ | .float _, _ | .text _, _ | .duration _, _ => rfl

theorem mapItemSlots_eq_self (path : Path) (position : Nat) : ∀ {items : List Value},
    (∀ found ∈ itemSlots path position items, f found.1 found.2 = found.2) →
      mapItemSlots f path position items = items
  | [], _ => rfl
  | item :: rest, h => by
      rw [itemSlots] at h
      rw [mapItemSlots, mapSlots_eq_self _ fun found hmem => h found (List.mem_append_left _ hmem),
        mapItemSlots_eq_self _ _ fun found hmem => h found (List.mem_append_right _ hmem)]

theorem mapEntrySlots_eq_self (path : Path) : ∀ {entries : List (String × Value)},
    (∀ found ∈ entrySlots path entries, f found.1 found.2 = found.2) →
      mapEntrySlots f path entries = entries
  | [], _ => rfl
  | (key, value) :: rest, h => by
      rw [entrySlots] at h
      rw [mapEntrySlots, mapSlots_eq_self _ fun found hmem => h found (List.mem_append_left _ hmem),
        mapEntrySlots_eq_self _ fun found hmem => h found (List.mem_append_right _ hmem)]

end

theorem mem_mapItemSlots {path : Path} {position : Nat} {items : List Value} {value : Value}
    (h : value ∈ mapItemSlots f path position items) :
    ∃ item ∈ items, ∃ place, value = item.mapSlots f place := by
  induction items generalizing position with
  | nil => simp [mapItemSlots] at h
  | cons item rest ih =>
      rcases List.mem_cons.mp h with rfl | hrest
      · exact ⟨item, List.mem_cons_self, _, rfl⟩
      · obtain ⟨other, hmem, hplace⟩ := ih hrest
        exact ⟨other, .tail _ hmem, hplace⟩

theorem mem_items_mapSlots {path : Path} {value item : Value}
    (h : item ∈ (value.mapSlots f path).items) :
    ∃ old ∈ value.items, ∃ place, item = old.mapSlots f place := by
  cases value with
  | sequence items => exact mem_mapItemSlots h
  | _ => exact ⟨_, List.mem_singleton.mpr rfl, path, List.mem_singleton.mp h⟩

theorem keys_mapEntrySlots (path : Path) (entries : List (String × Value)) :
    Table.keys (mapEntrySlots f path entries) = Table.keys entries := by
  rw [mapEntrySlots_eq_map, Table.keys, List.map_map]
  rfl

theorem mapSlots_eq_null_iff {path : Path} {value : Value} :
    value.mapSlots f path = .null ↔ value = .null := by
  cases value <;> simp [mapSlots]

end Value

def Node.content (node : Node) : Node := ⟨.root, Value.entriesContent node.entries⟩

theorem Node.get?_content (node : Node) (key : String) :
    node.content.get? key = (node.get? key).map Value.content :=
  Value.get?_entriesContent node.entries key

theorem Node.contains_of_content_eq {left right : Node} (h : left.content = right.content) :
    left.contains = right.contains := by
  funext key
  have hcontent := congrArg (fun node : Node => (node.get? key).isSome) h
  have hget : (left.get? key).isSome = (right.get? key).isSome := by
    simpa only [get?_content, Option.isSome_map] using hcontent
  exact hget

namespace NameTable

theorem mapSlots_of_isNamed {table : NameTable} {path : Path} {value : Value} (h : value.IsNamed) :
    value.mapSlots table.fillSlot path = value :=
  Value.mapSlots_eq_self path fun found hmem => fillSlot_eq_self (h path found hmem)

end NameTable

end Firmware
