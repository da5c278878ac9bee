import Firmware.Proofs.NameTable.Memory
import Firmware.Proofs.Unplaced
import Firmware.Proofs.Value.Unplaced
/-!
Locations renamed.  A table only asks whether a location is one that it has met before, so
naming commutes with every renaming that keeps locations apart: the same names are given to
the same slots, and the same problems are reported elsewhere.
-/

namespace Firmware

namespace NameTable

/-- The table without what it remembers of locations. -/
def unplaced (table : NameTable) : NameTable := { table with byPath := [] }

/-- Whether two tables are the same apart from a renaming of some locations, which keeps these
apart. -/
structure Renamed (rename : Path → Path) (places : List Path) (table table' : NameTable) :
    Prop where
  apart : ∀ path ∈ places, ∀ other ∈ places, rename path = rename other → path = other
  same : table'.unplaced = table.unplaced
  at? : ∀ path ∈ places, table'.at? (rename path) = table.at? path

variable {rename : Path → Path} {places : List Path} {table table' : NameTable} {path : Path}
  {slot : Slot} {slots slots' : List (Path × Slot)} {name base type : String} {isPointer : Bool}
  {left right : Node}

theorem isTaken_unplaced (table : NameTable) (name : String) :
    table.unplaced.isTaken name = table.isTaken name := rfl

theorem freeName_unplaced (table : NameTable) (base : String) :
    table.unplaced.freeName base = table.freeName base := rfl

theorem lookup?_unplaced (table : NameTable) (name : String) :
    table.unplaced.lookup? name = table.lookup? name := rfl

theorem unplaced_entered (table : NameTable) (path : Path) (id : Identifier) :
    (table.entered path id).unplaced = (table.unplaced.entered .root id).unplaced := rfl

namespace Renamed

theorem isTaken (h : Renamed rename places table table') (name : String) :
    table'.isTaken name = table.isTaken name := by
  rw [← isTaken_unplaced, h.same, isTaken_unplaced]

theorem freeName (h : Renamed rename places table table') (base : String) :
    table'.freeName base = table.freeName base := by
  rw [← freeName_unplaced, h.same, freeName_unplaced]

theorem entered (h : Renamed rename places table table') (hmem : path ∈ places)
    (id : Identifier) :
    Renamed rename places (table.entered path id) (table'.entered (rename path) id) where
  apart := h.apart
  same := by rw [unplaced_entered, h.same, ← unplaced_entered]
  at? := by
    intro other hother
    rw [at?_entered, at?_entered, h.at? other hother]
    exact if_congr ⟨h.apart path hmem other hother, congrArg rename⟩ rfl rfl

theorem allocateFor (h : Renamed rename places table table') (hmem : path ∈ places)
    (base type : String) (isPointer : Bool) :
    Renamed rename places (table.allocateFor path base type isPointer).2
      (table'.allocateFor (rename path) base type isPointer).2 := by
  rw [allocateFor_eq, allocateFor_eq, h.at? path hmem, h.freeName]
  cases table.at? path with
  | some id => exact h
  | none => exact h.entered hmem _

/-- A slot is refused at both locations, or accepted at both. -/
theorem registerSlot (h : Renamed rename places table table') (hmem : path ∈ places)
    (slot : Slot) :
    (∃ problem problem', table.registerSlot path slot = .error problem ∧
      table'.registerSlot (rename path) slot = .error problem' ∧
      problem'.unplaced = problem.unplaced) ∨
    ∃ next next', table.registerSlot path slot = .ok next ∧
      table'.registerSlot (rename path) slot = .ok next' ∧ Renamed rename places next next' := by
  cases hslot : slot.chosen? with
  | none => exact .inr ⟨_, _, registerSlot_of_unchosen hslot, registerSlot_of_unchosen hslot, h⟩
  | some name =>
      rw [registerSlot_of_chosen hslot, registerSlot_of_chosen hslot, declare_eq, declare_eq,
        h.at? path hmem, h.isTaken]
      cases (table.at? path).filter (·.name == name) with
      | some id => exact .inr ⟨table, table', rfl, rfl, h⟩
      | none =>
          cases table.isTaken name with
          | true => exact .inl ⟨_, _, rfl, rfl, rfl⟩
          | false => exact .inr ⟨_, _, rfl, rfl, h.entered hmem _⟩

theorem registerSlots (h : Renamed rename places table table')
    (hplaces : ∀ found ∈ slots, found.1 ∈ places) :
    let done := table.registerSlots slots
    let done' := table'.registerSlots (slots.map fun found => (rename found.1, found.2))
    Renamed rename places done.1 done'.1 ∧
      done'.2.map Problem.unplaced = done.2.map Problem.unplaced := by
  induction slots generalizing table table' with
  | nil => exact ⟨h, rfl⟩
  | cons found rest ih =>
      obtain ⟨path, slot⟩ := found
      have hrest : ∀ found ∈ rest, found.1 ∈ places := fun found hmem => hplaces found (.tail _ hmem)
      rw [List.map_cons, NameTable.registerSlots, NameTable.registerSlots]
      rcases h.registerSlot (hplaces _ List.mem_cons_self) slot with
        ⟨problem, problem', hfirst, hfirst', hsame⟩ | ⟨next, next', hfirst, hfirst', hnext⟩
      · rw [hfirst, hfirst']
        obtain ⟨hlater, hproblems⟩ := ih h hrest
        exact ⟨hlater, congrArg₂ List.cons hsame hproblems⟩
      · rw [hfirst, hfirst']
        exact ih hnext hrest

theorem nameSlots (h : Renamed rename places table table')
    (hplaces : ∀ found ∈ slots, found.1 ∈ places) :
    Renamed rename places (table.nameSlots slots)
      (table'.nameSlots (slots.map fun found => (rename found.1, found.2))) := by
  induction slots generalizing table table' with
  | nil => exact h
  | cons found rest ih =>
      obtain ⟨path, slot⟩ := found
      have hrest : ∀ found ∈ rest, found.1 ∈ places := fun found hmem => hplaces found (.tail _ hmem)
      rw [List.map_cons, nameSlots_cons, nameSlots_cons]
      split
      · exact ih (h.allocateFor (hplaces _ List.mem_cons_self) ..) hrest
      · exact ih h hrest

/-- A slot gets the same name at both locations. -/
theorem fillSlot (h : Renamed rename places table table') (hmem : path ∈ places) (slot : Slot) :
    table'.fillSlot (rename path) slot = table.fillSlot path slot := by
  rw [NameTable.fillSlot, NameTable.fillSlot, h.at? path hmem]

end Renamed

/-- Slots at different locations have a renaming to any such slots that are otherwise the
same. -/
theorem exists_renaming (hsame : slots.map (·.2) = slots'.map (·.2))
    (hnodup : (slots.map (·.1)).Nodup) (hnodup' : (slots'.map (·.1)).Nodup) :
    ∃ rename : Path → Path, slots' = slots.map (fun found => (rename found.1, found.2)) ∧
      ∀ path ∈ slots.map (·.1), ∀ other ∈ slots.map (·.1),
        rename path = rename other → path = other := by
  induction slots generalizing slots' with
  | nil => exact ⟨id, List.map_eq_nil_iff.mp hsame.symm, nofun⟩
  | cons found rest ih =>
      obtain ⟨path, slot⟩ := found
      obtain ⟨⟨path', _⟩, rest', rfl, rfl, hrest⟩ := List.map_eq_cons_iff.mp hsame.symm
      obtain ⟨hnew, hdistinct⟩ := List.nodup_cons.mp hnodup
      obtain ⟨hnew', hdistinct'⟩ := List.nodup_cons.mp hnodup'
      obtain ⟨rename, rfl, hinj⟩ := ih hrest.symm hdistinct hdistinct'
      -- The renaming of the rest is changed at a location that the rest does not have.
      have hkept : ∀ other ∈ rest.map (·.1), Function.update rename path path' other = rename other :=
        fun other hmem => Function.update_of_ne (ne_of_mem_of_not_mem hmem hnew) ..
      have hother : ∀ other ∈ rest.map (·.1), rename other ≠ path' := by
        intro other hmem heq
        apply hnew'
        obtain ⟨found, hfound, rfl⟩ := List.mem_map.mp hmem
        exact List.mem_map.mpr ⟨_, List.mem_map_of_mem hfound, heq⟩
      refine ⟨Function.update rename path path', ?_, ?_⟩
      · rw [List.map_cons, Function.update_self]
        refine congrArg _ (List.map_congr_left fun found hfound => ?_)
        rw [hkept found.1 (List.mem_map_of_mem hfound)]
      · intro first hfirst second hsecond heq
        rw [List.map_cons, List.mem_cons] at hfirst hsecond
        rcases hfirst with rfl | hfirst <;> rcases hsecond with rfl | hsecond
        · rfl
        · rw [Function.update_self, hkept second hsecond] at heq
          exact absurd heq.symm (hother second hsecond)
        · rw [Function.update_self, hkept first hfirst] at heq
          exact absurd heq (hother first hfirst)
        · rw [hkept first hfirst, hkept second hsecond] at heq
          exact hinj first hfirst second hsecond heq

/-- Nodes with the same content, each with its slots at different locations, are named alike
where no location has an identifier yet: the tables and the nodes only differ in locations,
and so do the problems. -/
theorem resolveDeclarations_unplaced {nodes nodes' : List Node} (hnew : table.byPath = [])
    (hcontent : nodes.map Node.content = nodes'.map Node.content)
    (hnodup : ((nodes.flatMap Node.slots).map (·.1)).Nodup)
    (hnodup' : ((nodes'.flatMap Node.slots).map (·.1)).Nodup) :
    let done := table.resolveDeclarations nodes
    let done' := table.resolveDeclarations nodes'
    done'.nodes.map Node.content = done.nodes.map Node.content ∧
      done'.table.unplaced = done.table.unplaced ∧
      done'.problems.map Problem.unplaced = done.problems.map Problem.unplaced := by
  intro done done'
  have hsame : (nodes.flatMap Node.slots).map (·.2) = (nodes'.flatMap Node.slots).map (·.2) := by
    rw [List.map_flatMap, List.map_flatMap, List.flatMap_def, List.flatMap_def]
    exact congrArg List.flatten
      (map_eq_map_of_imp (fun _ _ hcontent => Node.map_slots_eq hcontent) hcontent)
  obtain ⟨rename, hslots, happart⟩ := exists_renaming hsame hnodup hnodup'
  have hstart : Renamed rename ((nodes.flatMap Node.slots).map (·.1)) table table :=
    ⟨happart, rfl, fun path _ => by simp [NameTable.at?, hnew]⟩
  obtain ⟨hregistered, hproblems⟩ := hstart.registerSlots fun _ => List.mem_map_of_mem
  have hnamed := hregistered.nameSlots fun _ => List.mem_map_of_mem
  rw [← hslots] at hproblems hnamed
  have hfilled :
      (nodes.flatMap Node.slots).map (fun found => done.table.fillSlot found.1 found.2) =
        (nodes'.flatMap Node.slots).map fun found => done'.table.fillSlot found.1 found.2 := by
    rw [hslots, List.map_map]
    refine List.map_congr_left fun found hfound => ?_
    exact (hnamed.fillSlot (List.mem_map_of_mem hfound) found.2).symm
  exact ⟨(Node.map_content_mapSlots_eq hcontent hfilled).symm, hnamed.same, hproblems⟩

theorem referenceProblem?_unplaced (table : NameTable) (path : Path) (slot : Slot) :
    (table.referenceProblem? path slot).map Problem.unplaced =
      table.unplaced.referenceProblem? .root slot := by
  obtain ⟨name, type, base, declares⟩ := slot
  cases declares with
  | true => rfl
  | false =>
      cases name with
      | none => rfl
      | some name =>
          simp only [referenceProblem?, lookup?_unplaced]
          cases table.lookup? name with
          | none => rfl
          | some id =>
              dsimp only
              split <;> rfl

/-- Where the references of a node are does not matter for what is wrong with them. -/
theorem map_referenceProblems (table : NameTable) (node : Node) :
    (table.referenceProblems node).map Problem.unplaced =
      (node.slots.map (·.2)).filterMap (table.unplaced.referenceProblem? .root) := by
  rw [referenceProblems, List.map_filterMap, List.filterMap_map]
  exact List.filterMap_congr fun found _ => table.referenceProblem?_unplaced found.1 found.2

/-- References are checked alike in nodes with the same content. -/
theorem map_referenceProblems_eq (htable : table'.unplaced = table.unplaced)
    (h : left.content = right.content) :
    (table'.referenceProblems left).map Problem.unplaced =
      (table.referenceProblems right).map Problem.unplaced := by
  rw [map_referenceProblems, map_referenceProblems, htable, Node.map_slots_eq h]

end NameTable

end Firmware
