import Firmware.Proofs.NameTable.Given
import Firmware.Proofs.Value.Content
/-!
Naming again.  A table that has an identifier for every location that declares one, of the
name chosen there if there is one, is settled: naming the same declarations once more finds
all that it needs and leaves the table as it is.  Naming without a problem settles a table,
both for the declarations as they were and with their names filled in.
-/

namespace Firmware

namespace NameTable

variable {table : NameTable} {path : Path} {slot : Slot} {slots rest : List (Path × Slot)}
  {name : String} {id : Identifier} {nodes : List Node}

/-- Whether a table has what slots ask for: an identifier for a location that waits, and one
of the right name for a location that chooses. -/
structure Settled (table : NameTable) (slots : List (Path × Slot)) : Prop where
  placed : ∀ found ∈ slots, found.2.waits = true → ∃ id, table.at? found.1 = some id
  chosen : ∀ found ∈ slots, ∀ name, found.2.chosen? = some name →
    table.nameAt? found.1 = some name

namespace Settled

theorem tail (h : table.Settled ((path, slot) :: rest)) : table.Settled rest where
  placed found hmem := h.placed found (.tail _ hmem)
  chosen found hmem := h.chosen found (.tail _ hmem)

theorem registerSlots (h : table.Settled slots) : table.registerSlots slots = (table, []) := by
  induction slots with
  | nil => rfl
  | cons found rest ih =>
      obtain ⟨path, slot⟩ := found
      rw [NameTable.registerSlots]
      cases hslot : slot.chosen? with
      | none =>
          rw [registerSlot_of_unchosen hslot]
          exact ih h.tail
      | some name =>
          obtain ⟨id, hat, rfl⟩ :=
            Option.map_eq_some_iff.mp (h.chosen _ List.mem_cons_self name hslot)
          rw [registerSlot_of_chosen hslot, declare_of_at? hat]
          exact ih h.tail

theorem nameSlots (h : table.Settled slots) : table.nameSlots slots = table := by
  induction slots with
  | nil => rfl
  | cons found rest ih =>
      obtain ⟨path, slot⟩ := found
      rw [nameSlots_cons]
      split
      · next hwaits =>
          obtain ⟨id, hat⟩ := h.placed _ List.mem_cons_self hwaits
          rw [allocateFor_of_at? hat]
          exact ih h.tail
      · exact ih h.tail

/-- Naming fills in what the table has, and leaves it as it is. -/
theorem resolveDeclarations (h : table.Settled (nodes.flatMap Node.slots)) :
    table.resolveDeclarations nodes = ⟨nodes.map (Node.mapSlots table.fillSlot), table, []⟩ := by
  simp only [NameTable.resolveDeclarations, h.registerSlots, h.nameSlots]

theorem nameAt?_of_filled (h : table.Settled slots) (hmem : (path, slot) ∈ slots)
    (hchosen : (table.fillSlot path slot).chosen? = some name) :
    table.nameAt? path = some name := by
  by_cases hwaits : slot.waits = true
  · rw [fillSlot_of_waits hwaits] at hchosen
    exact (Slot.chosen?_eq_some_iff.mp hchosen).2
  · rw [fillSlot_eq_self (Bool.eq_false_iff.mpr hwaits)] at hchosen
    exact h.chosen _ hmem name hchosen

theorem waits_fillSlot (h : table.Settled slots) (hmem : (path, slot) ∈ slots) :
    (table.fillSlot path slot).waits = false := by
  by_cases hwaits : slot.waits = true
  · obtain ⟨id, hat⟩ := h.placed _ hmem hwaits
    rw [Slot.waits, fillSlot_name_of_waits hwaits hat, Option.isNone_some, Bool.and_false]
  · rw [fillSlot_eq_self (Bool.eq_false_iff.mpr hwaits)]
    exact Bool.eq_false_iff.mpr hwaits

/-- A table is settled for slots that it has filled in. -/
theorem filled (h : table.Settled slots) :
    table.Settled (slots.map fun found => (found.1, table.fillSlot found.1 found.2)) where
  placed := by
    intro _ hmem hwaits
    obtain ⟨⟨path, slot⟩, hslot, rfl⟩ := List.mem_map.mp hmem
    rw [h.waits_fillSlot hslot] at hwaits
    contradiction
  chosen := by
    intro _ hmem name hchosen
    obtain ⟨⟨path, slot⟩, hslot, rfl⟩ := List.mem_map.mp hmem
    exact h.nameAt?_of_filled hslot hchosen

theorem map_mapSlots (h : table.Settled (nodes.flatMap Node.slots)) :
    (nodes.map (Node.mapSlots table.fillSlot)).map (Node.mapSlots table.fillSlot) =
      nodes.map (Node.mapSlots table.fillSlot) := by
  rw [List.map_map]
  refine List.map_congr_left fun node hnode => ?_
  have hsame : ∀ found ∈ (node.mapSlots table.fillSlot).slots,
      table.fillSlot found.1 found.2 = found.2 := by
    rw [Node.slots_mapSlots]
    intro _ hmem
    obtain ⟨⟨path, slot⟩, hslot, rfl⟩ := List.mem_map.mp hmem
    exact fillSlot_eq_self (h.waits_fillSlot (List.mem_flatMap.mpr ⟨node, hnode, hslot⟩))
  exact congrArg (Node.mk node.path) (Value.mapEntrySlots_eq_self node.path hsame)

end Settled

/-- Where locations are all different, naming without a problem settles the table. -/
theorem Resolved.settled (h : Resolved slots table) (hnodup : (slots.map (·.1)).Nodup) :
    table.Settled slots where
  placed _ hmem := h.placed hmem
  chosen _ hmem _ := h.nameAt?_of_chosen hnodup hmem

/-- Naming is remembered.  If the declarations of nodes, all at different locations, are named
without a problem, then naming them once more changes neither names nor table, whether they
wait for their names again or have them already. -/
theorem resolveDeclarations_again (requests : List Request) (nodes : List Node)
    (hnodup : ((nodes.flatMap Node.slots).map (·.1)).Nodup)
    (hok : ((requests.foldl serve empty).resolveDeclarations nodes).problems = []) :
    let first := (requests.foldl serve empty).resolveDeclarations nodes
    first.table.resolveDeclarations first.nodes = first ∧
      first.table.resolveDeclarations nodes = first := by
  intro first
  have hresolved : Resolved (nodes.flatMap Node.slots) first.table :=
    resolved_of_ok (sound_foldl_serve requests) hok
  have hsettled := hresolved.settled hnodup
  have hfirst : first = ⟨nodes.map (Node.mapSlots first.table.fillSlot), first.table, []⟩ :=
    congrArg (Resolution.mk _ _) hok
  have hfilled : first.table.Settled (first.nodes.flatMap Node.slots) := by
    rw [slots_resolveDeclarations]
    exact hsettled.filled
  constructor
  · have hsame : first.nodes.map (Node.mapSlots first.table.fillSlot) = first.nodes :=
      hsettled.map_mapSlots
    rw [hfilled.resolveDeclarations, hsame]
    exact congrArg (Resolution.mk _ _) hok.symm
  · rw [hsettled.resolveDeclarations]
    exact hfirst.symm

/-- Where a light waits at a location that has got its name before, and a beacon chooses one
anew, a mast and a beacon are named as at first. -/
theorem mast_again :
    let beacons := (Path.root.field "beacon").index 0
    let table := ([.single (.allocateFor ((Path.root.field "mast").field "id") "pole" "Mast" true),
      .single (.declare (beacons.field "id") "lamp" "Light" true)] : List Request).foldl serve empty
    let first := table.resolveDeclarations [mast, beacon 0 (.explicit "flare" "Light")]
    first.nodes.flatMap Node.declarations = ["pole", "light", "light_2", "light_2_2", "flare"] ∧
      first.table.resolveDeclarations first.nodes = first ∧
      first.table.resolveDeclarations [mast, beacon 0 (.explicit "flare" "Light")] = first :=
  ⟨rfl, resolveDeclarations_again _ _ (by decide) rfl⟩

end NameTable

end Firmware
