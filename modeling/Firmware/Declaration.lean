import Firmware.OrderedSet
import Firmware.Schema.Description
/-!
Component kinds.
-/

namespace Firmware

/-- A role that the instances of a kind hold.  Each adds code after the instance's
own. -/
inductive Capability
  | schedulable
  | measurable
deriving DecidableEq, Repr

def Capability.label : Capability → String
  | .schedulable => "Schedulable"
  | .measurable => "Measurable"

/-- The description of a component kind. -/
structure Declaration where
  kind : String
  /-- The kinds that have to be configured and emitted before this one. -/
  dependencies : OrderedSet String
  /-- The kinds that cannot be configured together with this one. -/
  conflicts : OrderedSet String
  schema : Schema
  capabilities : OrderedSet Capability
  /-- Whether more than one instance may be configured. -/
  isMulti : Bool

namespace Declaration

/-- A kind that depends on nothing and allows any number of instances. -/
def ofSchema (kind : String) (schema : Schema) : Declaration := ⟨kind, [], [], schema, [], true⟩

def toJson (declaration : Declaration) : Json :=
  .object
    ([("kind", .text declaration.kind)]
      ++ (if declaration.dependencies.isEmpty then []
        else [("dependencies", .ofTexts declaration.dependencies)])
      ++ (if declaration.conflicts.isEmpty then []
        else [("conflicts_with", .ofTexts declaration.conflicts)])
      ++ [("schema", declaration.schema.toJson),
        ("capabilities", .ofTexts (declaration.capabilities.map Capability.label)),
        ("multi_conf", .bool declaration.isMulti)])

end Declaration

end Firmware
