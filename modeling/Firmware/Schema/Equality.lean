import Firmware.Schema.Basic
import Firmware.Value.Equality
/-!
Equality of kinds and schemas.
-/

namespace Firmware

namespace Kind

mutual

/-- Equality of kinds.  Limits compare numerically, the fields of nested schemas in
any order, and checks by their tags. -/
def eqv : Kind → Kind → Bool
  | .boolean, .boolean | .text, .text | .duration, .duration => true
  | .integer min max, .integer min' max' => min == min' && max == max'
  | .float min max, .float min' max' => min.numericEq min' && max.numericEq max'
  | .oneOf options, .oneOf options' => options == options'
  | .declareId type base, .declareId type' base' => type == type' && base == base'
  | .useId type, .useId type' => type == type'
  | .nested schema, .nested schema' => schemaEqv schema schema'
  | .sequenceOf item, .sequenceOf item' => item.eqv item'
  | .custom name check, .custom name' check' => name == name' && check.tag == check'.tag
  | _, _ => false
termination_by structural kind => kind

def schemaEqv : Schema → Schema → Bool
  | ⟨name, fields, constraints⟩, other =>
      name == other.name && fields.length == other.fields.length
        && fieldsWithin fields other.fields && constraints == other.constraints
termination_by structural schema => schema

/-- Whether every field has an equal one in a table. -/
def fieldsWithin : List (String × Field) → Table String Field → Bool
  | [], _ => true
  | (name, ⟨kind, required, default⟩) :: rest, table =>
      (match Table.get? table name with
        | some other =>
            kind.eqv other.kind && required == other.required && default == other.default
        | none => false) && fieldsWithin rest table
termination_by structural fields => fields

end

end Kind

/-- Equality of schemas: fields in any order, constraints in order. -/
def Schema.eqv (left right : Schema) : Bool := Kind.schemaEqv left right

end Firmware
