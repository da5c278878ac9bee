import Firmware.Proofs.Table
import Firmware.Validation.Scalar
import Firmware.Value.Json
/-!
Values read from JSON.  The parts of a value that is read are read from the parts of its
JSON value, and no mapping among them has a key twice.
-/

namespace Firmware

variable {path : Path} {name : String} {json : Json} {value item : Value} {node : Node}

namespace Value

def IsRead (value : Value) : Prop := ∃ path json, value = ofJson path json

theorem entriesOfJson_eq_map (path : Path) (entries : List (String × Json)) :
    entriesOfJson path entries =
      entries.map fun entry => (entry.1, ofJson (path.field entry.1) entry.2) := by
  induction entries with
  | nil => rfl
  | cons entry rest ih => rw [entriesOfJson, ih, List.map_cons]

theorem itemsOfJson_eq_map (path : Path) (position : Nat) (items : List Json) :
    itemsOfJson path position items =
      (items.zipIdx position).map fun item => ofJson (path.index item.2) item.1 := by
  induction items generalizing position with
  | nil => rfl
  | cons item rest ih => rw [itemsOfJson, ih, List.zipIdx_cons, List.map_cons]

theorem keys_entriesOfJson (path : Path) (entries : List (String × Json)) :
    Table.keys (entriesOfJson path entries) = Table.keys entries := by
  rw [entriesOfJson_eq_map, Table.keys, List.map_map]
  rfl

theorem getElem?_itemsOfJson (path : Path) (items : List Json) (position : Nat) :
    (itemsOfJson path 0 items)[position]? =
      items[position]?.map (ofJson (path.index position)) := by
  rw [itemsOfJson_eq_map, List.getElem?_map, List.getElem?_zipIdx, Option.map_map, Nat.zero_add]
  rfl

/-- What is read from JSON as a mapping is read from an object. -/
theorem node?_ofJson_eq_some (h : (ofJson path json).node? = some node) :
    ∃ entries, json = .object entries ∧
      node = ⟨path, Table.ofList (entriesOfJson path entries)⟩ := by
  cases json with
  | object entries => exact ⟨entries, rfl, (Option.some.inj h).symm⟩
  | integer value =>
      rw [ofJson] at h
      split at h <;> contradiction
  | _ => contradiction

theorem IsRead.nodup_keys (h : value.IsRead) (hnode : value.node? = some node) :
    node.keys.Nodup := by
  obtain ⟨path, json, rfl⟩ := h
  obtain ⟨entries, rfl, rfl⟩ := node?_ofJson_eq_some hnode
  exact Table.nodup_keys_ofList _

theorem IsRead.of_get? (h : value.IsRead) (hnode : value.node? = some node)
    (hget : node.get? name = some item) : item.IsRead := by
  obtain ⟨path, json, rfl⟩ := h
  obtain ⟨entries, rfl, rfl⟩ := node?_ofJson_eq_some hnode
  have hentry := Table.mem_of_mem_ofList (Table.mem_of_get?_eq hget)
  rw [entriesOfJson_eq_map] at hentry
  obtain ⟨⟨key, json⟩, _, hpair⟩ := List.mem_map.mp hentry
  obtain ⟨rfl, rfl⟩ := Prod.mk.inj hpair
  exact ⟨path.field key, json, rfl⟩

theorem IsRead.of_mem_items (h : value.IsRead) (hmem : item ∈ value.items) : item.IsRead := by
  obtain ⟨path, json, rfl⟩ := h
  cases json with
  | array elements =>
      rw [ofJson, items, itemsOfJson_eq_map] at hmem
      obtain ⟨⟨json, position⟩, _, rfl⟩ := List.mem_map.mp hmem
      exact ⟨path.index position, json, rfl⟩
  | integer number =>
      have hitems : (ofJson path (.integer number)).items = [ofJson path (.integer number)] := by
        rw [ofJson]
        split <;> rfl
      rw [hitems] at hmem
      exact ⟨path, .integer number, List.mem_singleton.mp hmem⟩
  | null | bool | float | text | object =>
      exact ⟨path, _, List.mem_singleton.mp hmem⟩

end Value

namespace Node

theorem isRead_of_ofJson? (h : ofJson? path json = some node) :
    node.toValue.IsRead := by
  cases json with
  | object entries =>
      obtain rfl := Option.some.inj h
      exact ⟨path, .object entries, rfl⟩
  | null =>
      obtain rfl := Option.some.inj h
      exact ⟨path, .object [], rfl⟩
  | _ => contradiction

end Node

end Firmware
