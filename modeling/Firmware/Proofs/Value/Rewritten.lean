import Firmware.Proofs.Value.Slots
/-!
Values that differ in their identifier slots.  Keys and their order, the number of items,
the locations of mappings and all values of other types are the same, and so are the places
of slots; only what is in a slot may be another.  Replacing the slots of a value leads to
such a value.
-/

namespace Firmware

/-- Values at a location that differ in their slots only, and there as allowed. -/
inductive Value.Rewritten (allowed : Path → Slot → Slot → Prop) : Path → Value → Value → Prop
  | slot {path : Path} {old new : Slot} (changed : allowed path old new) :
      Rewritten allowed path (.identifier old) (.identifier new)
  | mapping {path : Path} (own : Path) {left right : List (String × Value)}
      (keys : Table.keys left = Table.keys right)
      (values : ∀ (position : Nat) (a b : String × Value), left[position]? = some a →
        right[position]? = some b → Rewritten allowed (own.field a.1) a.2 b.2) :
      Rewritten allowed path (.mapping own left) (.mapping own right)
  | sequence {path : Path} {left right : List Value} (length : left.length = right.length)
      (items : ∀ (position : Nat) (a b : Value), left[position]? = some a →
        right[position]? = some b → Rewritten allowed (path.index position) a b) :
      Rewritten allowed path (.sequence left) (.sequence right)
  | same {path : Path} {value : Value} (without : value.slots path = []) :
      Rewritten allowed path value value

def Node.Rewritten (allowed : Path → Slot → Slot → Prop) (left right : Node) : Prop :=
  left.toValue.Rewritten allowed left.path right.toValue

namespace Value

variable {allowed : Path → Slot → Slot → Prop} {f : Path → Slot → Slot}

theorem length_mapItemSlots (path : Path) (position : Nat) (items : List Value) :
    (mapItemSlots f path position items).length = items.length := by
  induction items generalizing position with
  | nil => rfl
  | cons item rest ih => rw [mapItemSlots, List.length_cons, List.length_cons, ih]

mutual

/-- Replacing slots, each as allowed, changes nothing else. -/
theorem rewritten_mapSlots (path : Path) : ∀ (value : Value),
    (∀ found ∈ value.slots path, allowed found.1 found.2 (f found.1 found.2)) →
      value.Rewritten allowed path (value.mapSlots f path)
  | .identifier slot, h => .slot (h (path, slot) (List.mem_singleton.mpr rfl))
  | .mapping own entries, h => by
      refine .mapping own ?_ (rewritten_mapEntrySlots own h)
      rw [mapEntrySlots_eq_map, Table.keys, Table.keys, List.map_map]
      rfl
  | .sequence items, h => by
      refine .sequence (length_mapItemSlots path 0 items).symm fun position a b ha hb => ?_
      have hitem := rewritten_mapItemSlots path 0 h position a b ha hb
      rwa [Nat.zero_add] at hitem
  | .null, _ | .bool _, _ | .integer _, _ | .float _, _ | .text _, _ | .duration _, _ =>
      .same rfl

theorem rewritten_mapItemSlots (path : Path) (start : Nat) : ∀ {items : List Value},
    (∀ found ∈ itemSlots path start items, allowed found.1 found.2 (f found.1 found.2)) →
      ∀ (position : Nat) (a b : Value), items[position]? = some a →
        (mapItemSlots f path start items)[position]? = some b →
          a.Rewritten allowed (path.index (start + position)) b
  | [], _ => by simp
  | item :: rest, h => by
      rw [itemSlots] at h
      rw [mapItemSlots]
      rintro (_ | position) a b ha hb
      · obtain rfl := Option.some.inj ha
        obtain rfl := Option.some.inj hb
        exact rewritten_mapSlots _ _ fun found hmem => h found (List.mem_append_left _ hmem)
      · have hrest := rewritten_mapItemSlots path (start + 1)
          (fun found hmem => h found (List.mem_append_right _ hmem)) position a b ha hb
        rwa [Nat.add_right_comm] at hrest

theorem rewritten_mapEntrySlots (path : Path) : ∀ {entries : List (String × Value)},
    (∀ found ∈ entrySlots path entries, allowed found.1 found.2 (f found.1 found.2)) →
      ∀ (position : Nat) (a b : String × Value), entries[position]? = some a →
        (mapEntrySlots f path entries)[position]? = some b →
          a.2.Rewritten allowed (path.field a.1) b.2
  | [], _ => by simp
  | (key, value) :: rest, h => by
      rw [entrySlots] at h
      rw [mapEntrySlots]
      rintro (_ | position) a b ha hb
      · obtain rfl := Option.some.inj ha
        obtain rfl := Option.some.inj hb
        exact rewritten_mapSlots _ _ fun found hmem => h found (List.mem_append_left _ hmem)
      · exact rewritten_mapEntrySlots path
          (fun found hmem => h found (List.mem_append_right _ hmem)) position a b ha hb

end

end Value

theorem Node.rewritten_mapSlots {allowed : Path → Slot → Slot → Prop} {f : Path → Slot → Slot}
    {node : Node} (h : ∀ found ∈ node.slots, allowed found.1 found.2 (f found.1 found.2)) :
    node.Rewritten allowed (node.mapSlots f) :=
  Value.rewritten_mapSlots node.path node.toValue h

end Firmware
