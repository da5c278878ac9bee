import Firmware.Double.Layout
import Firmware.Identifier.Basic
import Firmware.Path
import Firmware.Table
/-!
Values of a configuration, raw or normalized.  Raw values come from a JSON
document; identifiers and durations appear only in normalized ones.  Every mapping
remembers its location.
-/

namespace Firmware

inductive Value
  | null
  | bool (value : Bool)
  | integer (value : Int64)
  | float (value : Double)
  | text (value : String)
  | mapping (path : Path) (entries : List (String × Value))
  | sequence (items : List Value)
  | identifier (slot : Slot)
  | duration (milliseconds : UInt64)
deriving Repr, Inhabited

/-- A mapping of a configuration: its location, and its entries in document
order. -/
structure Node where
  path : Path
  entries : List (String × Value)
deriving Repr, Inhabited

def Node.toValue (node : Node) : Value := .mapping node.path node.entries

namespace Value

def typeName : Value → String
  | .null => "null"
  | .bool _ => "bool"
  | .integer _ => "integer"
  | .float _ => "float"
  | .text _ => "string"
  | .mapping _ _ => "mapping"
  | .sequence _ => "sequence"
  | .identifier _ => "id"
  | .duration _ => "time period"

/-- A scalar as text, or the type of anything else, for messages. -/
def describe : Value → String
  | .text value => "`" ++ value ++ "`"
  | .integer value => toString value.toInt
  | .float value => Layout.plain.write value
  | .bool value => toString value
  | other => "a " ++ other.typeName

def isNull : Value → Bool
  | .null => true
  | _ => false

def bool? : Value → Option Bool
  | .bool value => some value
  | _ => none

def integer? : Value → Option Int64
  | .integer value => some value
  | _ => none

/-- The number, integers included. -/
def number? : Value → Option Double
  | .float value => some value
  | .integer value => some (.ofInt value.toInt)
  | _ => none

def text? : Value → Option String
  | .text value => some value
  | _ => none

def slot? : Value → Option Slot
  | .identifier slot => some slot
  | _ => none

def node? : Value → Option Node
  | .mapping path entries => some ⟨path, entries⟩
  | _ => none

def milliseconds? : Value → Option UInt64
  | .duration milliseconds => some milliseconds
  | _ => none

end Value

namespace Node

def empty (path : Path) : Node := ⟨path, []⟩

def get? (node : Node) (key : String) : Option Value := Table.get? node.entries key

def contains (node : Node) (key : String) : Bool := Table.contains node.entries key

def keys (node : Node) : List String := Table.keys node.entries

/-- Stores a value under a key, in place if the key is present. -/
def insert (node : Node) (key : String) (value : Value) : Node :=
  { node with entries := Table.insert node.entries key value }

/-- The name of the variable in an identifier slot under a key. -/
def slotName? (node : Node) (key : String) : Option String :=
  ((node.get? key).bind Value.slot?).bind (·.name)

end Node

end Firmware
