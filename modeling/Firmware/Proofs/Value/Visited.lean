import Firmware.Proofs.Value.Rewritten
import Firmware.Proofs.Value.Reaching
/-!
Visits to identifier slots.  A visitor is shown the slots of a value one after another, with their
locations, and remembers what it likes; a visitor that replaces slots is shown the same ones at the
same locations in the same order.  This is the order of the document, and nothing but the slots is
replaced.
-/

namespace Firmware

namespace Value

section Visitors

variable {σ : Type} (f : Path → Slot → Slot) (visitor : Path → Slot → σ → σ)

mutual

/-- A visitor is shown the slots that are listed, in the order of the list. -/
theorem visitSlots_eq_foldl (path : Path) : ∀ (value : Value) (state : σ),
    value.visitSlots visitor path state =
      (value.slots path).foldl (fun state found => visitor found.1 found.2 state) state
  | .identifier _, _ => rfl
  | .mapping own entries, state => visitEntrySlots_eq_foldl own entries state
  | .sequence items, state => visitItemSlots_eq_foldl path 0 items state
  | .null, _ | .bool _, _ | .integer _, _ | .float _, _ | .text _, _ | .duration _, _ => rfl

theorem visitItemSlots_eq_foldl (path : Path) (position : Nat) :
    ∀ (items : List Value) (state : σ), visitItemSlots visitor path position items state =
      (itemSlots path position items).foldl (fun state found => visitor found.1 found.2 state)
        state
  | [], _ => rfl
  | item :: rest, state => by
      rw [visitItemSlots, itemSlots, List.foldl_append, visitSlots_eq_foldl,
        visitItemSlots_eq_foldl]

theorem visitEntrySlots_eq_foldl (path : Path) :
    ∀ (entries : List (String × Value)) (state : σ), visitEntrySlots visitor path entries state =
      (entrySlots path entries).foldl (fun state found => visitor found.1 found.2 state) state
  | [], _ => rfl
  | (key, value) :: rest, state => by
      rw [visitEntrySlots, entrySlots, List.foldl_append, visitSlots_eq_foldl,
        visitEntrySlots_eq_foldl]

end

/-- The visitor that answers with a function, and otherwise does what another one does. -/
def answering (path : Path) (slot : Slot) (state : σ) : Slot × σ :=
  (f path slot, visitor path slot state)

mutual

/-- A visitor that replaces slots is shown what one is shown that does not. -/
theorem replaceSlots_answering (path : Path) : ∀ (value : Value) (state : σ),
    value.replaceSlots (answering f visitor) path state =
      (value.mapSlots f path, value.visitSlots visitor path state)
  | .identifier _, _ => rfl
  | .mapping own entries, state => by
      rw [replaceSlots, replaceEntrySlots_answering own entries state]
      rfl
  | .sequence items, state => by
      rw [replaceSlots, replaceItemSlots_answering path 0 items state]
      rfl
  | .null, _ | .bool _, _ | .integer _, _ | .float _, _ | .text _, _ | .duration _, _ => rfl

theorem replaceItemSlots_answering (path : Path) (position : Nat) :
    ∀ (items : List Value) (state : σ),
      replaceItemSlots (answering f visitor) path position items state =
        (mapItemSlots f path position items, visitItemSlots visitor path position items state)
  | [], _ => rfl
  | item :: rest, state => by
      rw [replaceItemSlots, replaceSlots_answering, mapItemSlots, visitItemSlots]
      dsimp only
      rw [replaceItemSlots_answering]

theorem replaceEntrySlots_answering (path : Path) :
    ∀ (entries : List (String × Value)) (state : σ),
      replaceEntrySlots (answering f visitor) path entries state =
        (mapEntrySlots f path entries, visitEntrySlots visitor path entries state)
  | [], _ => rfl
  | (key, value) :: rest, state => by
      rw [replaceEntrySlots, replaceSlots_answering, mapEntrySlots, visitEntrySlots]
      dsimp only
      rw [replaceEntrySlots_answering]

end

end Visitors

/-- The parts of a value with their locations, in document order.  A mapping is where it says it
is; items of a sequence are below `path`. -/
def parts (path : Path) : Value → List (Path × Value)
  | .mapping own entries => entries.map fun entry => (own.field entry.1, entry.2)
  | .sequence items => items.mapIdx fun position item => (path.index position, item)
  | _ => []

/-- What stands at an address in a value, with its location.  An address tells for every level
how many parts stand before. -/
def standing? (path : Path) (value : Value) : List Nat → Option (Path × Value)
  | [] => some (path, value)
  | before :: rest => (value.parts path)[before]?.bind fun part => part.2.standing? part.1 rest

/-- Whether slots with their locations are all those that stand in a value, each once, from the
beginning of the document to its end. -/
structure InDocumentOrder (path : Path) (value : Value) (found : List (Path × Slot))
    (addresses : List (List Nat)) : Prop where
  ordered : addresses.Pairwise (· < ·)
  standing : addresses.map (value.standing? path) =
    found.map fun found => some (found.1, .identifier found.2)
  complete : ∀ address location slot,
    value.standing? path address = some (location, .identifier slot) → address ∈ addresses

variable {path : Path} {value : Value}

/-- What holds of a value as soon as it holds of its parts at their locations holds of every
value. -/
theorem of_parts {motive : Path → Value → Prop}
    (h : ∀ path value, (∀ part ∈ value.parts path, motive part.1 part.2) → motive path value)
    (path : Path) (value : Value) : motive path value := by
  refine Hereditary.of_value (motive := fun value => ∀ path, motive path value) ⟨?_, ?_, ?_⟩
    value path
  · intro value hscalar path
    refine h path value fun part hpart => ?_
    cases value with
    | mapping | sequence => simp [isScalar] at hscalar
    | _ => contradiction
  · intro items hitems path
    refine h path _ fun part hpart => ?_
    obtain ⟨position, hlt, rfl⟩ := List.mem_mapIdx.mp hpart
    exact hitems _ (List.getElem_mem hlt) _
  · intro own entries hentries path
    refine h path _ fun part hpart => ?_
    obtain ⟨⟨key, value⟩, hmem, rfl⟩ := List.mem_map.mp hpart
    exact hentries key value hmem _

/-- A value that is no slot itself has the slots of its parts. -/
theorem slots_eq_flatMap_parts (h : value.slot? = none) :
    value.slots path = (value.parts path).flatMap fun part => part.2.slots part.1 := by
  cases value with
  | identifier => contradiction
  | mapping own entries =>
      rw [slots, entrySlots_eq_flatMap, parts, List.flatMap_map]
  | sequence items =>
      rw [slots, itemSlots_eq_flatMap, parts, List.mapIdx_eq_zipIdx_map, List.flatMap_map]
  | _ => rfl

theorem standing?_cons_of_mem {part : Path × Value} {before : Nat}
    (h : (part, before) ∈ (value.parts path).zipIdx) (rest : List Nat) :
    value.standing? path (before :: rest) = part.2.standing? part.1 rest := by
  rw [standing?, List.mem_zipIdx_iff_getElem?.mp h, Option.bind_some]

/-- The slots of the parts are in document order one part after another. -/
theorem InDocumentOrder.of_parts {addressesOf : Path × Value → List (List Nat)}
    (hslot : value.slot? = none)
    (h : ∀ part ∈ value.parts path,
      part.2.InDocumentOrder part.1 (part.2.slots part.1) (addressesOf part)) :
    value.InDocumentOrder path (value.slots path)
      ((value.parts path).zipIdx.flatMap fun part => (addressesOf part.1).map (part.2 :: ·)) := by
  have hpart : ∀ {part before}, (part, before) ∈ (value.parts path).zipIdx →
      part.2.InDocumentOrder part.1 (part.2.slots part.1) (addressesOf part) := fun hmem =>
    h _ (List.mem_of_getElem? (List.mem_zipIdx_iff_getElem?.mp hmem))
  constructor
  · refine List.pairwise_flatMap.mpr ⟨fun part hmem => List.pairwise_map.mpr ?_, ?_⟩
    · exact (hpart hmem).ordered.imp fun hlt => List.cons_lt_cons_iff.mpr (.inr ⟨rfl, hlt⟩)
    · refine (pairwise_lt_zipIdx _).imp fun hlt address haddress other hother => ?_
      obtain ⟨rest, _, rfl⟩ := List.mem_map.mp haddress
      obtain ⟨rest', _, rfl⟩ := List.mem_map.mp hother
      exact List.cons_lt_cons_iff.mpr (.inl hlt)
  · have hbelow : ∀ found ∈ (value.parts path).zipIdx,
        ((addressesOf found.1).map (found.2 :: ·)).map (value.standing? path) =
          (found.1.2.slots found.1.1).map fun found => some (found.1, .identifier found.2) := by
      intro found hmem
      rw [← (hpart hmem).standing, List.map_map]
      exact List.map_congr_left fun rest _ => standing?_cons_of_mem hmem rest
    rw [List.map_flatMap, slots_eq_flatMap_parts hslot, List.map_flatMap,
      List.flatMap_congr hbelow]
    nth_rewrite 2 [← List.zipIdx_map_fst 0 (value.parts path)]
    rw [List.flatMap_map]
  · intro address location slot hstanding
    cases address with
    | nil =>
        obtain ⟨_, rfl⟩ := Prod.mk.inj (Option.some.inj hstanding)
        contradiction
    | cons before rest =>
        obtain ⟨part, hget, hrest⟩ := Option.bind_eq_some_iff.mp hstanding
        have hmem : (part, before) ∈ (value.parts path).zipIdx :=
          List.mem_zipIdx_iff_getElem?.mpr hget
        exact List.mem_flatMap.mpr ⟨(part, before), hmem,
          List.mem_map_of_mem ((hpart hmem).complete rest location slot hrest)⟩

theorem exists_inDocumentOrder (path : Path) (value : Value) :
    ∃ addresses, value.InDocumentOrder path (value.slots path) addresses := by
  induction path, value using of_parts with
  | h path value ih =>
      cases hslot : value.slot? with
      | some slot =>
          cases value with
          | identifier slot =>
              refine ⟨[[]], by simp, rfl, fun address location slot hstanding => ?_⟩
              cases address with
              | nil => exact List.mem_singleton.mpr rfl
              | cons => contradiction
          | _ => contradiction
      | none =>
          choose! addressesOf hparts using ih
          exact ⟨_, .of_parts hslot hparts⟩

end Value

namespace Node

/-- A visitor that replaces the slots of a node by a function is shown what one is shown that does
not replace them: the slots with their locations in document order, each once.  The node it leaves
differs in nothing but its slots, each of which holds what the function makes of it. -/
theorem replaceSlots_visits {σ : Type} (f : Path → Slot → Slot) (visitor : Path → Slot → σ → σ)
    (node : Node) (state : σ) :
    node.replaceSlots (Value.answering f visitor) state =
        (node.mapSlots f, node.visitSlots visitor state) ∧
      node.visitSlots visitor state =
        node.slots.foldl (fun state found => visitor found.1 found.2 state) state ∧
      (∃ addresses, node.toValue.InDocumentOrder node.path node.slots addresses) ∧
      node.Rewritten (fun location old new => new = f location old) (node.mapSlots f) := by
  refine ⟨?_, ?_, ?_, ?_⟩
  · rw [replaceSlots, Value.replaceEntrySlots_answering]
    rfl
  · exact Value.visitEntrySlots_eq_foldl visitor node.path node.entries state
  · exact Value.exists_inDocumentOrder node.path node.toValue
  · exact rewritten_mapSlots fun _ _ => rfl

end Node

end Firmware
