import Firmware.Proofs.Value.Json
/-!
Values that differ in the order of their keys.  The mappings at any depth of two such values
have the same keys, each with values that differ in this way again; the items of sequences
keep their order.  JSON values in this relation are read as values in this relation.
-/

namespace Firmware

/-- JSON values that only differ in the order of the keys of their objects.  Objects in which
the order differs have no key twice. -/
inductive Json.Reordered : Json → Json → Prop
  | same (json : Json) : Reordered json json
  | array {left right : List Json} (length : left.length = right.length)
      (items : ∀ (position : Nat) (a b : Json), left[position]? = some a →
        right[position]? = some b → Reordered a b) :
      Reordered (.array left) (.array right)
  | object {left right : List (String × Json)} (distinct : (Table.keys left).Nodup)
      (keys : (Table.keys left).Perm (Table.keys right))
      (values : ∀ (key : String) (a b : Json), (key, a) ∈ left → (key, b) ∈ right →
        Reordered a b) :
      Reordered (.object left) (.object right)

/-- Values that only differ in the order of the keys of their mappings. -/
inductive Value.Reordered : Value → Value → Prop
  | same (value : Value) : Reordered value value
  | sequence {left right : List Value} (length : left.length = right.length)
      (items : ∀ (position : Nat) (a b : Value), left[position]? = some a →
        right[position]? = some b → Reordered a b) :
      Reordered (.sequence left) (.sequence right)
  | mapping (own : Path) {left right : List (String × Value)} (distinct : (Table.keys left).Nodup)
      (keys : (Table.keys left).Perm (Table.keys right))
      (values : ∀ (key : String) (a b : Value), (key, a) ∈ left → (key, b) ∈ right →
        Reordered a b) :
      Reordered (.mapping own left) (.mapping own right)

def Node.Reordered (left right : Node) : Prop := left.toValue.Reordered right.toValue

theorem Json.Reordered.ofJson {left right : Json} (h : left.Reordered right) (path : Path) :
    (Value.ofJson path left).Reordered (Value.ofJson path right) := by
  induction h generalizing path with
  | same json => exact .same _
  | @array left right hlength _ ih =>
      refine .sequence ?_ fun position a b ha hb => ?_
      · rw [Value.itemsOfJson_eq_map, Value.itemsOfJson_eq_map]
        simpa using hlength
      · rw [Value.getElem?_itemsOfJson] at ha hb
        obtain ⟨json, hjson, rfl⟩ := Option.map_eq_some_iff.mp ha
        obtain ⟨json', hjson', rfl⟩ := Option.map_eq_some_iff.mp hb
        exact ih position json json' hjson hjson' _
  | @object left right hdistinct hkeys _ ih =>
      have hleft : (Table.keys (Value.entriesOfJson path left)).Nodup := by
        rwa [Value.keys_entriesOfJson]
      have hright : (Table.keys (Value.entriesOfJson path right)).Nodup := by
        rw [Value.keys_entriesOfJson]
        exact hkeys.nodup hdistinct
      rw [Value.ofJson, Value.ofJson, Table.ofList_of_nodup hleft, Table.ofList_of_nodup hright]
      refine .mapping path hleft ?_ fun key a b ha hb => ?_
      · rwa [Value.keys_entriesOfJson, Value.keys_entriesOfJson]
      · rw [Value.entriesOfJson_eq_map] at ha hb
        obtain ⟨⟨name, json⟩, hjson, hpair⟩ := List.mem_map.mp ha
        obtain ⟨⟨name', json'⟩, hjson', hpair'⟩ := List.mem_map.mp hb
        obtain ⟨rfl, rfl⟩ := Prod.mk.inj hpair
        obtain ⟨rfl, rfl⟩ := Prod.mk.inj hpair'
        exact ih _ json json' hjson hjson' _

variable {left right : Value} {name : String}

namespace Value

theorem Reordered.isNull_eq (h : left.Reordered right) : left.isNull = right.isNull := by
  cases h <;> rfl

theorem Reordered.items (h : left.Reordered right) :
    left.items.length = right.items.length ∧ ∀ (position : Nat) (a b : Value),
      left.items[position]? = some a → right.items[position]? = some b → a.Reordered b := by
  cases h with
  | same value =>
      refine ⟨rfl, fun position a b ha hb => ?_⟩
      obtain rfl := Option.some.inj (ha.symm.trans hb)
      exact .same a
  | sequence hlength hitems => exact ⟨hlength, hitems⟩
  | mapping own hdistinct hkeys hvalues =>
      refine ⟨rfl, fun position a b ha hb => ?_⟩
      obtain rfl := List.mem_singleton.mp (List.mem_of_getElem? ha)
      obtain rfl := List.mem_singleton.mp (List.mem_of_getElem? hb)
      exact .mapping own hdistinct hkeys hvalues

end Value

namespace Node.Reordered

variable {left right : Node}

theorem refl (node : Node) : node.Reordered node := .same _

theorem path_eq (h : left.Reordered right) : left.path = right.path := by
  obtain ⟨own, entries⟩ := left
  obtain ⟨own', entries'⟩ := right
  cases h <;> rfl

theorem keys_perm (h : left.Reordered right) : left.keys.Perm right.keys := by
  obtain ⟨own, entries⟩ := left
  obtain ⟨own', entries'⟩ := right
  cases h with
  | same => exact .refl _
  | mapping _ _ hkeys => exact hkeys

/-- Under a key there is a value in both nodes or in none, and the values correspond. -/
theorem get? (h : left.Reordered right) (name : String) :
    Option.Rel Value.Reordered (left.get? name) (right.get? name) := by
  obtain ⟨own, entries⟩ := left
  obtain ⟨own', entries'⟩ := right
  cases h with
  | same =>
      cases (Node.mk own entries).get? name with
      | none => exact .none
      | some value => exact .some (.same value)
  | mapping _ hdistinct hkeys hvalues =>
      cases hleft : (Node.mk own entries).get? name with
      | none =>
          have habsent := Table.get?_eq_none_iff.mp hleft
          have hright : (Node.mk own entries').get? name = none :=
            Table.get?_eq_none_iff.mpr fun hmem => habsent (hkeys.mem_iff.mpr hmem)
          rw [hright]
          exact .none
      | some value =>
          have hentry := Table.mem_of_get?_eq hleft
          have hkey : name ∈ Table.keys entries' :=
            hkeys.mem_iff.mp (List.mem_map.mpr ⟨_, hentry, rfl⟩)
          obtain ⟨⟨key, value'⟩, hentry', hsame⟩ := List.mem_map.mp hkey
          obtain rfl : name = key := hsame.symm
          have hright : (Node.mk own entries').get? name = some value' :=
            Table.get?_eq_of_mem (hkeys.nodup hdistinct) hentry'
          rw [hright]
          exact .some (hvalues _ value value' hentry hentry')

end Node.Reordered

end Firmware
