import Firmware.Json.Basic
import Firmware.Text
import Firmware.Value.Basic
/-!
Values of a configuration from JSON, and as JSON.
-/

namespace Firmware

namespace Value

mutual

/-- The value of a JSON value at a location.  Integers that are no signed 64-bit
words become floating-point numbers. -/
def ofJson (path : Path) : Json → Value
  | .null => .null
  | .bool value => .bool value
  | .integer value =>
      match Text.word? value with
      | some word => .integer word
      | none => .float (.ofInt value)
  | .float value => .float value
  | .text value => .text value
  | .array items => .sequence (itemsOfJson path 0 items)
  | .object entries => .mapping path (Table.ofList (entriesOfJson path entries))
termination_by structural json => json

def itemsOfJson (path : Path) (position : Nat) : List Json → List Value
  | [] => []
  | item :: rest => ofJson (path.index position) item :: itemsOfJson path (position + 1) rest
termination_by structural items => items

def entriesOfJson (path : Path) : List (String × Json) → List (String × Value)
  | [] => []
  | (key, value) :: rest => (key, ofJson (path.field key) value) :: entriesOfJson path rest
termination_by structural entries => entries

end

mutual

/-- The JSON form: an identifier is its name, a duration its milliseconds. -/
def toJson : Value → Json
  | .null => .null
  | .bool value => .bool value
  | .integer value => .integer value.toInt
  | .float value => .float value
  | .text value => .text value
  | .mapping _ entries => .object (entriesToJson entries)
  | .sequence items => .array (itemsToJson items)
  | .identifier slot => Json.ofText? slot.name
  | .duration milliseconds => .text (toString milliseconds.toNat ++ "ms")
termination_by structural value => value

def itemsToJson : List Value → List Json
  | [] => []
  | item :: rest => item.toJson :: itemsToJson rest
termination_by structural items => items

def entriesToJson : List (String × Value) → List (String × Json)
  | [] => []
  | (key, value) :: rest => (key, value.toJson) :: entriesToJson rest
termination_by structural entries => entries

end

end Value

namespace Node

/-- The node of a JSON object, or an empty node for `null`. -/
def ofJson? (path : Path) : Json → Option Node
  | .object entries => some ⟨path, Table.ofList (Value.entriesOfJson path entries)⟩
  | .null => some (.empty path)
  | _ => none

def toJson (node : Node) : Json := .object (Value.entriesToJson node.entries)

end Node

end Firmware
