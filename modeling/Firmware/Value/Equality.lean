import Firmware.Value.Basic
/-!
Equality of values, as it decides whether a value is absent and whether two schemas
are the same.
-/

namespace Firmware

namespace Value

mutual

/-- Equality of values.  Mappings are equal when their entries are, in any order
and at any location; numbers compare numerically, so not-a-number differs from
itself. -/
def eqv : Value → Value → Bool
  | .null, .null => true
  | .bool a, .bool b => a == b
  | .integer a, .integer b => a == b
  | .float a, .float b => a.numericEq b
  | .text a, .text b => a == b
  | .mapping _ a, .mapping _ b => a.length == b.length && entriesWithin a b
  | .sequence a, .sequence b => itemsEqv a b
  | .identifier a, .identifier b => a == b
  | .duration a, .duration b => a == b
  | _, _ => false
termination_by structural value => value

def itemsEqv : List Value → List Value → Bool
  | [], [] => true
  | a :: left, b :: right => a.eqv b && itemsEqv left right
  | _, _ => false
termination_by structural items => items

/-- Whether every entry has an equal one in a table. -/
def entriesWithin : List (String × Value) → Table String Value → Bool
  | [], _ => true
  | (key, value) :: rest, table =>
      (match Table.get? table key with
        | some other => value.eqv other
        | none => false) && entriesWithin rest table
termination_by structural entries => entries

end

instance : BEq Value := ⟨eqv⟩

end Value

/-- Equality of nodes, which disregards locations and the order of entries. -/
def Node.eqv (left right : Node) : Bool := left.toValue.eqv right.toValue

end Firmware
