import Firmware.NameTable.Basic
import Firmware.Value.Slots
/-!
Resolution of the identifier slots of a configuration: declarations get their
names, and references are checked against them.
-/

namespace Firmware

namespace NameTable

/-- Registers the chosen name of a declaration; other slots are passed over. -/
def registerSlot (table : NameTable) (path : Path) (slot : Slot) :
    Except Problem NameTable :=
  match slot.declares, slot.name with
  | true, some name => (table.declare path name slot.type true).map (·.2)
  | _, _ => .ok table

/-- Registers the chosen names of slots in order, and reports those that were
taken. -/
def registerSlots (table : NameTable) : List (Path × Slot) → NameTable × List Problem
  | [] => (table, [])
  | (path, slot) :: rest =>
      match table.registerSlot path slot with
      | .ok table => table.registerSlots rest
      | .error problem =>
          let (table, problems) := table.registerSlots rest
          (table, problem :: problems)

/-- Gives names to the declarations that wait for one, in order. -/
def nameSlots (table : NameTable) (slots : List (Path × Slot)) : NameTable :=
  slots.foldl
    (fun table (path, slot) =>
      if slot.declares && slot.name.isNone then
        (table.allocateFor path slot.suggestion slot.type true).2
      else table)
    table

/-- A slot with the name that its location was given, if it waits for one. -/
def fillSlot (table : NameTable) (path : Path) (slot : Slot) : Slot :=
  if slot.declares && slot.name.isNone then
    { slot with name := (table.at? path).map (·.name) }
  else slot

/-- What became of the declarations of some nodes. -/
structure Resolution where
  nodes : List Node
  table : NameTable
  problems : List Problem

/-- Names every declaration of the nodes.  Chosen names are registered first,
across all nodes, so that no automatic name takes one of them. -/
def resolveDeclarations (table : NameTable) (nodes : List Node) : Resolution :=
  let slots := nodes.flatMap Node.slots
  let (table, problems) := table.registerSlots slots
  let table := table.nameSlots slots
  ⟨nodes.map (Node.mapSlots table.fillSlot), table, problems⟩

/-- The problem of a slot that refers to no declared identifier of its type. -/
def referenceProblem? (table : NameTable) (path : Path) (slot : Slot) : Option Problem :=
  match slot.declares, slot.name with
  | false, some name =>
      match table.lookup? name with
      | none => some ⟨.unresolvedId, some path, "couldn't find the id `" ++ name ++ "`"⟩
      | some identifier =>
          if typesMatch identifier.type slot.type then none
          else some ⟨.invalidValue, some path,
            "the id `" ++ name ++ "` has type `" ++ identifier.type ++ "`, expected `"
              ++ slot.type ++ "`"⟩
  | _, _ => none

/-- The problems of the references of a node, in document order. -/
def referenceProblems (table : NameTable) (node : Node) : List Problem :=
  node.slots.filterMap fun (path, slot) => table.referenceProblem? path slot

end NameTable

end Firmware
