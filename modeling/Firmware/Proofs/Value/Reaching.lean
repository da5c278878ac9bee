import Firmware.Proofs.Value.Spread
/-!
Parts of a value, and the places at which they stand.  A part is reached by keys of mappings
and positions of sequences.  A mapping remembers a location of its own, and slots are visited
at the places at which they stand as far as the mappings around them are where they say.
-/

namespace Firmware

namespace Value

/-- The part of a value at a step: under a key of a mapping, or at a position of a sequence. -/
def part? : Value → Segment → Option Value
  | .mapping _ entries, .key name => Table.get? entries name
  | .sequence items, .index position => items[position]?
  | _, _ => none

/-- The part of a value that is reached by some steps.  Unlike a conversion, this takes no
value for a sequence of itself. -/
def reach? : Value → Path → Option Value
  | value, [] => some value
  | value, step :: rest => (value.part? step).bind fun part => part.reach? rest
termination_by structural _ steps => steps

variable {value found : Value} {path : Path} {step : Segment} {steps : Path}

@[simp] theorem reach?_nil (value : Value) : value.reach? [] = some value := rfl

theorem reach?_cons_eq_some_iff : value.reach? (step :: steps) = some found ↔
    ∃ part, value.part? step = some part ∧ part.reach? steps = some found := by
  rw [reach?, Option.bind_eq_some_iff]

theorem reach?_of_isScalar (hscalar : value.isScalar = true) :
    value.reach? steps = some found ↔ steps = [] ∧ value = found := by
  cases steps with
  | nil => simp
  | cons step rest =>
      have hnone : value.part? step = none := by
        cases value with
        | mapping | sequence => simp [isScalar] at hscalar
        | _ => rfl
      simp [reach?_cons_eq_some_iff, hnone]

theorem reach?_sequence_eq_some_iff {items : List Value} :
    (sequence items).reach? steps = some found ↔ steps = [] ∧ sequence items = found ∨
      ∃ position rest item, steps = .index position :: rest ∧ items[position]? = some item ∧
        item.reach? rest = some found := by
  rcases steps with _ | ⟨key | position, rest⟩
  · simp
  · simp [reach?_cons_eq_some_iff, part?]
  · simp [reach?_cons_eq_some_iff, part?]

theorem reach?_mapping_eq_some_iff {own : Path} {entries : List (String × Value)} :
    (mapping own entries).reach? steps = some found ↔ steps = [] ∧ mapping own entries = found ∨
      ∃ key rest entry, steps = .key key :: rest ∧ Table.get? entries key = some entry ∧
        entry.reach? rest = some found := by
  rcases steps with _ | ⟨key | position, rest⟩
  · simp
  · simp [reach?_cons_eq_some_iff, part?]
  · simp [reach?_cons_eq_some_iff, part?]

theorem isFlat_of_mem {item : Value} : ∀ {items : List Value}, areFlat items = true →
    item ∈ items → item.isFlat = true
  | _ :: _, hflat, hmem => by
      rw [areFlat, Bool.and_eq_true] at hflat
      rcases List.mem_cons.mp hmem with rfl | hlater
      · exact hflat.1
      · exact isFlat_of_mem hflat.2 hlater

/-- What is reached from a value that holds no mapping holds none. -/
theorem isFlat_of_reach? (hflat : value.isFlat = true) (h : value.reach? steps = some found) :
    found.isFlat = true := by
  induction steps generalizing value with
  | nil => exact Option.some.inj h ▸ hflat
  | cons step rest ih =>
      obtain ⟨part, hpart, hrest⟩ := reach?_cons_eq_some_iff.mp h
      refine ih ?_ hrest
      unfold part? at hpart
      split at hpart
      · simp [isFlat] at hflat
      · rw [isFlat] at hflat
        exact isFlat_of_mem hflat (List.mem_of_getElem? hpart)
      · simp at hpart

/-- Whether a statement holds of values without parts, and of values with parts as soon as it
holds of these. -/
structure Hereditary (motive : Value → Prop) : Prop where
  scalar : ∀ value, value.isScalar = true → motive value
  sequence : ∀ items, (∀ item ∈ items, motive item) → motive (.sequence items)
  mapping : ∀ own entries, (∀ key value, (key, value) ∈ entries → motive value) →
    motive (.mapping own entries)

namespace Hereditary

variable {motive : Value → Prop}

mutual

/-- Such a statement holds of every value. -/
theorem of_value (h : Hereditary motive) : ∀ value : Value, motive value
  | .sequence items => h.sequence items (of_items h items)
  | .mapping own entries => h.mapping own entries (of_entries h entries)
  | .null | .bool _ | .integer _ | .float _ | .text _ | .identifier _ | .duration _ =>
      h.scalar _ rfl

theorem of_items (h : Hereditary motive) : ∀ items : List Value, ∀ item ∈ items, motive item
  | [] => nofun
  | first :: rest => List.forall_mem_cons.mpr ⟨of_value h first, of_items h rest⟩

theorem of_entries (h : Hereditary motive) : ∀ entries : List (String × Value),
    ∀ key value, (key, value) ∈ entries → motive value
  | [] => nofun
  | (_, first) :: rest => by
      intro key value hmem
      rcases List.mem_cons.mp hmem with heq | hlater
      · exact (Prod.mk.inj heq).2 ▸ of_value h first
      · exact of_entries h rest key value hlater

end

end Hereditary

/-- A value at a location in which every mapping is located where it stands, and has no key
twice. -/
inductive InPlace : Path → Value → Prop
  | scalar {path : Path} {value : Value} (scalar : value.isScalar = true) : InPlace path value
  | sequence {path : Path} {items : List Value}
      (items_inPlace : ∀ (position : Nat) (item : Value), items[position]? = some item →
        InPlace (path.index position) item) : InPlace path (.sequence items)
  | mapping {path : Path} {entries : List (String × Value)} (keys : (Table.keys entries).Nodup)
      (entries_inPlace : ∀ (key : String) (value : Value), (key, value) ∈ entries →
        InPlace (path.field key) value) : InPlace path (.mapping path entries)

/-- Whether every mapping that is reached from a value at a location is located where it
stands, and has no key twice. -/
def ReachesInPlace (path : Path) (value : Value) : Prop :=
  ∀ steps own entries, value.reach? steps = some (.mapping own entries) →
    own = path ++ steps ∧ (Table.keys entries).Nodup

theorem ReachesInPlace.part (step : Segment) {part : Value} (h : value.ReachesInPlace path)
    (hpart : value.part? step = some part) : part.ReachesInPlace (path ++ [step]) := by
  intro steps own entries hreach
  rw [List.append_assoc]
  exact h (step :: steps) own entries (reach?_cons_eq_some_iff.mpr ⟨part, hpart, hreach⟩)

/-- Such a value is in place. -/
theorem ReachesInPlace.inPlace (h : value.ReachesInPlace path) : value.InPlace path := by
  refine Hereditary.of_value (motive := fun value => ∀ path, value.ReachesInPlace path →
    value.InPlace path) ⟨?_, ?_, ?_⟩ value path h
  · exact fun value hscalar path _ => .scalar hscalar
  · intro items hitems path h
    exact .sequence fun position item hitem =>
      hitems item (List.mem_of_getElem? hitem) _ (h.part (.index position) hitem)
  · intro own entries hentries path h
    obtain ⟨rfl, hkeys⟩ := h [] own entries rfl
    rw [List.append_nil] at h ⊢
    exact .mapping hkeys fun key value hmem =>
      hentries key value hmem _ (h.part (.key key) (Table.get?_eq_of_mem hkeys hmem))

/-- The slots of a value in place are visited at the places at which they stand. -/
theorem InPlace.mem_slots_iff (h : value.InPlace path) {location : Path} {slot : Slot} :
    (location, slot) ∈ value.slots path ↔
      ∃ steps, value.reach? steps = some (.identifier slot) ∧ location = path ++ steps := by
  induction h with
  | @scalar path value hscalar =>
      simp only [reach?_of_isScalar hscalar]
      cases value with
      | mapping | sequence => simp [isScalar] at hscalar
      | identifier own => simp [slots, and_comm, eq_comm]
      | _ => simp [slots]
  | @sequence path items _ ih =>
      rw [slots, itemSlots_eq_flatMap, List.mem_flatMap]
      constructor
      · rintro ⟨⟨item, position⟩, hmem, hfound⟩
        have hitem := List.mem_zipIdx_iff_getElem?.mp hmem
        obtain ⟨steps, hreach, rfl⟩ := (ih position item hitem).mp hfound
        exact ⟨.index position :: steps, reach?_cons_eq_some_iff.mpr ⟨item, hitem, hreach⟩,
          (List.append_cons ..).symm⟩
      · rintro ⟨steps, hreach, rfl⟩
        rcases reach?_sequence_eq_some_iff.mp hreach with ⟨_, hself⟩ |
          ⟨position, rest, item, rfl, hitem, hbelow⟩
        · simp at hself
        · exact ⟨(item, position), List.mem_zipIdx_iff_getElem?.mpr hitem,
            (ih position item hitem).mpr ⟨rest, hbelow, List.append_cons ..⟩⟩
  | @mapping path entries hkeys _ ih =>
      rw [slots, mem_entrySlots]
      constructor
      · rintro ⟨⟨key, entry⟩, hmem, hfound⟩
        obtain ⟨steps, hreach, rfl⟩ := (ih key entry hmem).mp hfound
        exact ⟨.key key :: steps,
          reach?_cons_eq_some_iff.mpr ⟨entry, Table.get?_eq_of_mem hkeys hmem, hreach⟩,
          (List.append_cons ..).symm⟩
      · rintro ⟨steps, hreach, rfl⟩
        rcases reach?_mapping_eq_some_iff.mp hreach with ⟨_, hself⟩ |
          ⟨key, rest, entry, rfl, hentry, hbelow⟩
        · simp at hself
        · have hmem := Table.mem_of_get?_eq hentry
          exact ⟨(key, entry), hmem,
            (ih key entry hmem).mpr ⟨rest, hbelow, List.append_cons ..⟩⟩

/-- The slots of a value in place are all at different locations. -/
theorem InPlace.spread (h : value.InPlace path) : Spread path (value.slots path) := by
  induction h with
  | scalar hscalar => exact spread_of_isFlat _ (isFlat_of_isScalar hscalar)
  | sequence _ ih =>
      exact spread_itemSlots fun item hmem => ih _ _ (List.mem_zipIdx_iff_getElem?.mp hmem)
  | mapping hkeys _ ih => exact spread_entrySlots hkeys fun entry hmem => ih _ _ hmem

end Value

end Firmware
