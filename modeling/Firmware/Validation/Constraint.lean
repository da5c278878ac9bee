import Firmware.Problem
import Firmware.Schema.Basic
/-!
When a constraint holds of a node, and what is wrong when it does not.
-/

namespace Firmware

namespace Constraint

def present (fields : List String) (node : Node) : Nat := fields.countP node.contains

def violation? (constraint : Constraint) (node : Node) : Option String :=
  match constraint with
  | .requires field required =>
      if node.contains field && !node.contains required then
        some ("`" ++ field ++ "` requires `" ++ required ++ "`")
      else none
  | .exclusive fields =>
      if 1 < present fields node then
        some ("at most one of " ++ Text.quotedList fields ++ " may be set")
      else none
  | .atLeastOne fields =>
      if present fields node = 0 then
        some ("at least one of " ++ Text.quotedList fields ++ " must be set")
      else none
  | .exactlyOne fields =>
      if present fields node ≠ 1 then
        some ("exactly one of " ++ Text.quotedList fields ++ " must be set")
      else none
  | .inclusive fields =>
      if present fields node ≠ 0 ∧ present fields node ≠ fields.length then
        some ("either none or all of " ++ Text.quotedList fields ++ " must be set")
      else none

def problem? (constraint : Constraint) (node : Node) (path : Path) : Option Problem :=
  (constraint.violation? node).map fun message =>
    ⟨.constraintViolation, some path, message⟩

end Constraint

end Firmware
