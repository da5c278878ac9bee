import Firmware.Declaration
import Firmware.Failure
import Firmware.Routine.Basic
/-!
Component kinds with their emission routines, and the registry of the kinds that a
document may configure.
-/

namespace Firmware

/-- A component kind with the routine that emits its instances. -/
structure Component where
  declaration : Declaration
  routine : Routine
  /-- Whether the events of the routine appear in reports. -/
  observed : Bool

/-- The registered components by kind, in the order of their registration. -/
structure Components where
  byKind : Table String Component

namespace Components

def empty : Components := ⟨[]⟩

def contains (components : Components) (kind : String) : Bool :=
  Table.contains components.byKind kind

/-- Registers a component.  Its schema has to declare an identifier, and its kind
has to be new. -/
def add (components : Components) (component : Component) : Except Failure Components :=
  let kind := component.declaration.kind
  let refuse (fault : String) : Except Failure Components :=
    .error (.ofProblem .registry
      ⟨.schemaConflict, none, "the component `" ++ kind ++ "` " ++ fault⟩)
  if component.declaration.schema.idField?.isNone then
    refuse "declares no identifier field"
  else if components.contains kind then refuse "is already registered"
  else .ok ⟨Table.insert components.byKind kind component⟩

def find (components : Components) (kind : String) : Except Problem Component :=
  match Table.get? components.byKind kind with
  | some component => .ok component
  | none => .error ⟨.unknownKind, none, "the component `" ++ kind ++ "` is not registered"⟩

def describe (components : Components) : Json :=
  .object (components.byKind.map fun (kind, component) => (kind, component.declaration.toJson))

end Components

end Firmware
