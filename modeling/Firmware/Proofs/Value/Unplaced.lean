import Firmware.Code.Expression
import Firmware.Proofs.Value.Content
import Firmware.Proofs.Value.Json
/-!
What the content of a value decides.  Everything that is read off a value is, apart from
locations: its scalars, its slots in their order, and what it becomes when these are
replaced.  Where a value is read from JSON at two locations, its content is the same.
-/

namespace Firmware

namespace Value

mutual

theorem content_content : ∀ value : Value, value.content.content = value.content
  | .mapping _ entries => congrArg (mapping .root) (entriesContent_entriesContent entries)
  | .sequence items => congrArg sequence (itemsContent_itemsContent items)
  | .null | .bool _ | .integer _ | .float _ | .text _ | .identifier _ | .duration _ => rfl

theorem itemsContent_itemsContent :
    ∀ items : List Value, itemsContent (itemsContent items) = itemsContent items
  | [] => rfl
  | item :: rest => by
      rw [itemsContent, itemsContent, content_content item, itemsContent_itemsContent rest]

theorem entriesContent_entriesContent :
    ∀ entries : List (String × Value), entriesContent (entriesContent entries) =
      entriesContent entries
  | [] => rfl
  | (_, value) :: rest => by
      rw [entriesContent, entriesContent, content_content value,
        entriesContent_entriesContent rest]

end

theorem entriesContent_eq_iff {left right : Table String Value} :
    entriesContent left = entriesContent right ↔
      Table.Related (fun a b => a.content = b.content) left right := by
  rw [entriesContent_eq_map, entriesContent_eq_map, Table.related_iff_map_eq]

mutual

/-- Where a value is read does not matter for its content. -/
theorem content_ofJson (path place : Path) :
    ∀ json : Json, (ofJson path json).content = (ofJson place json).content
  | .array items => congrArg sequence (itemsContent_itemsOfJson path place 0 items)
  | .object entries => congrArg (mapping .root) (entriesContent_eq_iff.mpr
      (entriesContent_eq_iff.mp (entriesContent_entriesOfJson path place entries)).ofList)
  | .null | .bool _ | .float _ | .text _ => rfl
  | .integer value => by
      rw [ofJson, ofJson]

theorem itemsContent_itemsOfJson (path place : Path) (position : Nat) :
    ∀ items : List Json, itemsContent (itemsOfJson path position items) =
      itemsContent (itemsOfJson place position items)
  | [] => rfl
  | item :: rest => by
      rw [itemsOfJson, itemsOfJson, itemsContent, itemsContent, content_ofJson _ (place.index position),
        itemsContent_itemsOfJson path place]

theorem entriesContent_entriesOfJson (path place : Path) :
    ∀ entries : List (String × Json), entriesContent (entriesOfJson path entries) =
      entriesContent (entriesOfJson place entries)
  | [] => rfl
  | (key, json) :: rest => by
      rw [entriesOfJson, entriesOfJson, entriesContent, entriesContent,
        content_ofJson _ (place.field key), entriesContent_entriesOfJson path place]

end

section Readers

variable (value : Value)

theorem isNull_content : value.content.isNull = value.isNull := by cases value <;> rfl

theorem bool?_content : value.content.bool? = value.bool? := by cases value <;> rfl

theorem integer?_content : value.content.integer? = value.integer? := by cases value <;> rfl

theorem number?_content : value.content.number? = value.number? := by cases value <;> rfl

theorem text?_content : value.content.text? = value.text? := by cases value <;> rfl

theorem slot?_content : value.content.slot? = value.slot? := by cases value <;> rfl

theorem milliseconds?_content : value.content.milliseconds? = value.milliseconds? := by
  cases value <;> rfl

theorem describe_content : value.content.describe = value.describe := by cases value <;> rfl

theorem node?_content : value.content.node? = value.node?.map Node.content := by
  cases value <;> rfl

theorem items_content : value.content.items = value.items.map content := by
  cases value with
  | sequence items => exact itemsContent_eq_map items
  | _ => rfl

theorem literal?_content : Expression.literal? value.content = Expression.literal? value := by
  cases value <;> rfl

end Readers

mutual

theorem map_slots_content (path place : Path) :
    ∀ value : Value, (value.content.slots place).map (·.2) = (value.slots path).map (·.2)
  | .mapping own entries => map_entrySlots_content own .root entries
  | .sequence items => map_itemSlots_content path place 0 items
  | .identifier _ => rfl
  | .null | .bool _ | .integer _ | .float _ | .text _ | .duration _ => rfl

theorem map_itemSlots_content (path place : Path) (position : Nat) :
    ∀ items : List Value, (itemSlots place position (itemsContent items)).map (·.2) =
      (itemSlots path position items).map (·.2)
  | [] => rfl
  | item :: rest => by
      rw [itemsContent, itemSlots, itemSlots, List.map_append, List.map_append,
        map_slots_content (path.index position), map_itemSlots_content path place]

theorem map_entrySlots_content (path place : Path) :
    ∀ entries : List (String × Value), (entrySlots place (entriesContent entries)).map (·.2) =
      (entrySlots path entries).map (·.2)
  | [] => rfl
  | (key, value) :: rest => by
      rw [entriesContent, entrySlots, entrySlots, List.map_append, List.map_append,
        map_slots_content (path.field key), map_entrySlots_content path place]

end

/-- Values with the same content have the same slots, wherever these are. -/
theorem map_slots_eq {left right : Value} (h : left.content = right.content) (path place : Path) :
    (left.slots path).map (·.2) = (right.slots place).map (·.2) := by
  rw [← map_slots_content path .root, h, map_slots_content place]

/-- Images of slots are taken apart where the slots of the first of several values end. -/
theorem append_map_slots_inj {f f' : Path → Slot → Slot}
    {first first' rest rest' : List (Path × Slot)} (hfirst : first.map (·.2) = first'.map (·.2))
    (h : (first ++ rest).map (fun found => f found.1 found.2) =
      (first' ++ rest').map fun found => f' found.1 found.2) :
    first.map (fun found => f found.1 found.2) = first'.map (fun found => f' found.1 found.2) ∧
      rest.map (fun found => f found.1 found.2) = rest'.map fun found => f' found.1 found.2 := by
  rw [List.map_append, List.map_append] at h
  have hlength := congrArg List.length hfirst
  rw [List.length_map, List.length_map] at hlength
  exact List.append_inj h (by rw [List.length_map, List.length_map, hlength])

section Replaced

variable {f f' : Path → Slot → Slot}

mutual

/-- Values with the same content become values with the same content, if their slots become
the same ones. -/
theorem content_mapSlots_eq (path place : Path) : ∀ {left right : Value},
    left.content = right.content →
      (left.slots path).map (fun found => f found.1 found.2) =
        (right.slots place).map (fun found => f' found.1 found.2) →
      (left.mapSlots f path).content = (right.mapSlots f' place).content
  | .mapping own _, .mapping own' _, hcontent, hslots =>
      congrArg (mapping .root)
        (entriesContent_mapSlots_eq own own' (mapping.inj hcontent).2 hslots)
  | .sequence _, .sequence _, hcontent, hslots =>
      congrArg sequence
        (itemsContent_mapSlots_eq path place 0 (sequence.inj hcontent) hslots)
  | .identifier _, .identifier _, _, hslots =>
      congrArg identifier (List.cons.inj hslots).1
  | .null, _, h, _ | .bool _, _, h, _ | .integer _, _, h, _ | .float _, _, h, _ | .text _, _, h, _
  | .duration _, _, h, _ => by
      rw [eq_of_content_eq rfl h]
      rfl

theorem itemsContent_mapSlots_eq (path place : Path) (position : Nat) :
    ∀ {left right : List Value}, itemsContent left = itemsContent right →
      (itemSlots path position left).map (fun found => f found.1 found.2) =
        (itemSlots place position right).map (fun found => f' found.1 found.2) →
      itemsContent (mapItemSlots f path position left) =
        itemsContent (mapItemSlots f' place position right)
  | [], [], _, _ => rfl
  | _ :: _, _ :: _, hcontent, hslots => by
      obtain ⟨hfirst, hrest⟩ := List.cons.inj hcontent
      obtain ⟨hown, hlater⟩ := append_map_slots_inj (map_slots_eq hfirst _ _) hslots
      rw [mapItemSlots, mapItemSlots, itemsContent, itemsContent,
        content_mapSlots_eq _ (place.index position) hfirst hown,
        itemsContent_mapSlots_eq path place (position + 1) hrest hlater]

theorem entriesContent_mapSlots_eq (path place : Path) :
    ∀ {left right : List (String × Value)}, entriesContent left = entriesContent right →
      (entrySlots path left).map (fun found => f found.1 found.2) =
        (entrySlots place right).map (fun found => f' found.1 found.2) →
      entriesContent (mapEntrySlots f path left) = entriesContent (mapEntrySlots f' place right)
  | [], [], _, _ => rfl
  | (key, _) :: _, (_, _) :: _, hcontent, hslots => by
      obtain ⟨hentry, hrest⟩ := List.cons.inj hcontent
      obtain ⟨rfl, hfirst⟩ := Prod.mk.inj hentry
      obtain ⟨hown, hlater⟩ := append_map_slots_inj (map_slots_eq hfirst _ _) hslots
      rw [mapEntrySlots, mapEntrySlots, entriesContent, entriesContent,
        content_mapSlots_eq _ (place.field key) hfirst hown,
        entriesContent_mapSlots_eq path place hrest hlater]

end

end Replaced

end Value

namespace Node

variable {left right node : Node} {f f' : Path → Slot → Slot}

theorem content_content (node : Node) : node.content.content = node.content :=
  congrArg (Node.mk .root) (Value.entriesContent_entriesContent node.entries)

theorem keys_content (node : Node) : node.content.keys = node.keys :=
  Value.keys_entriesContent node.entries

theorem content_toValue (node : Node) : node.toValue.content = node.content.toValue := rfl

/-- Where a node is read does not matter for its content. -/
theorem content_ofJson? (path place : Path) (json : Json) :
    (ofJson? path json).map content = (ofJson? place json).map content := by
  cases json with
  | object entries =>
      have hentries := Value.content_ofJson path place (.object entries)
      exact congrArg (fun entries => some (Node.mk .root entries)) (Value.mapping.inj hentries).2
  | _ => rfl

theorem given?_content (node : Node) (name : String) :
    node.content.given? name = (node.given? name).map Value.content := by
  rw [given?, given?, get?_content]
  cases node.get? name with
  | none => rfl
  | some value =>
      rw [Option.map_some, Option.filter_some, Option.filter_some, Value.isNull_content]
      split <;> rfl

/-- What is read off an entry is read off its content. -/
theorem bind_get?_content {α : Type} {read : Value → Option α}
    (h : ∀ value, read value.content = read value) (node : Node) (key : String) :
    (node.content.get? key).bind read = (node.get? key).bind read := by
  rw [get?_content, Option.bind_map]
  exact congrArg _ (funext h)

theorem slotName?_content (node : Node) (key : String) :
    node.content.slotName? key = node.slotName? key :=
  congrArg (Option.bind · _) (bind_get?_content Value.slot?_content node key)

theorem map_slots_content (node : Node) : node.content.slots.map (·.2) = node.slots.map (·.2) :=
  Value.map_entrySlots_content node.path .root node.entries

theorem map_slots_eq (h : left.content = right.content) :
    left.slots.map (·.2) = right.slots.map (·.2) := by
  rw [← map_slots_content, h, map_slots_content]

theorem map_content_mapSlots_eq {nodes nodes' : List Node}
    (hcontent : nodes.map content = nodes'.map content)
    (hslots : (nodes.flatMap slots).map (fun found => f found.1 found.2) =
      (nodes'.flatMap slots).map fun found => f' found.1 found.2) :
    (nodes.map (mapSlots f)).map content = (nodes'.map (mapSlots f')).map content := by
  induction nodes generalizing nodes' with
  | nil =>
      obtain rfl := List.map_eq_nil_iff.mp hcontent.symm
      rfl
  | cons node rest ih =>
      obtain ⟨node', rest', rfl, hfirst, hrest⟩ := List.map_eq_cons_iff.mp hcontent.symm
      rw [List.flatMap_cons, List.flatMap_cons] at hslots
      obtain ⟨hown, hlater⟩ := Value.append_map_slots_inj (map_slots_eq hfirst.symm) hslots
      have hentries := Value.entriesContent_mapSlots_eq node.path node'.path
        (Node.mk.inj hfirst.symm).2 hown
      rw [List.map_cons, List.map_cons, List.map_cons, List.map_cons, ih hrest.symm hlater]
      exact congrArg (Node.mk .root · :: _) hentries

theorem declarations_content (node : Node) : node.content.declarations = node.declarations := by
  have hslots := congrArg (List.filterMap fun slot : Slot =>
    if slot.declares then slot.name else none) node.map_slots_content
  rwa [List.filterMap_map, List.filterMap_map] at hslots

theorem references_content (node : Node) : node.content.references = node.references := by
  have hslots := congrArg (List.filterMap fun slot : Slot =>
    if slot.declares then none else slot.name) node.map_slots_content
  rwa [List.filterMap_map, List.filterMap_map] at hslots

end Node

end Firmware
