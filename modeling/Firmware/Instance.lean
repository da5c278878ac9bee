import Firmware.Declaration
import Firmware.Problem
/-!
Configured instances of component kinds.
-/

namespace Firmware

/-- A configured component: its position in the document, its kind, its normalized
configuration and its variable. -/
structure Instance where
  index : Nat
  declaration : Declaration
  config : Node
  id : Identifier

namespace Instance

def kind (inst : Instance) : String := inst.declaration.kind

def path (inst : Instance) : Path := inst.config.path

/-- The instance of a configuration whose identifiers have names.  There is none
if the kind declares no identifier. -/
def configure (index : Nat) (declaration : Declaration) (config : Node) :
    Except Problem (Option Instance) :=
  match declaration.schema.idField? with
  | none => .ok none
  | some (field, type) =>
      match config.slotName? field with
      | some name => .ok (some ⟨index, declaration, config, ⟨name, type, true⟩⟩)
      | none =>
          .error ⟨.unresolvedId, some config.path,
            "the `" ++ field ++ "` of `" ++ declaration.kind ++ "` has no name"⟩

end Instance

end Firmware
