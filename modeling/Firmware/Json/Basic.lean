import Firmware.Double.Basic
import Firmware.Table
/-!
JSON values.  Entries of an object keep their order, and the integers that fit a
64-bit word, signed or unsigned, are told apart from other numbers.
-/

namespace Firmware

inductive Json
  | null
  | bool (value : Bool)
  | integer (value : Int)
  | float (value : Double)
  | text (value : String)
  | array (items : List Json)
  | object (entries : List (String × Json))
deriving Repr, Inhabited

namespace Json

def entry? (json : Json) (key : String) : Option Json :=
  match json with
  | .object entries => Table.get? entries key
  | _ => none

/-- The text, or `null` for none. -/
def ofText? : Option String → Json
  | some value => .text value
  | none => .null

def ofTexts (texts : List String) : Json := .array (texts.map .text)

end Json

end Firmware
