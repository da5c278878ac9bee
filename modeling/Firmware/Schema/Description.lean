import Firmware.Schema.Basic
import Firmware.Value.Json
/-!
Descriptions of schemas as JSON.
-/

namespace Firmware

def Constraint.toJson : Constraint → Json
  | .requires field required =>
      .object [("Requires", .object [("field", .text field), ("requires", .text required)])]
  | .exclusive fields => .object [("Exclusive", .ofTexts fields)]
  | .atLeastOne fields => .object [("AtLeastOne", .ofTexts fields)]
  | .exactlyOne fields => .object [("ExactlyOne", .ofTexts fields)]
  | .inclusive fields => .object [("Inclusive", .ofTexts fields)]

namespace Kind

/-- An entry that is left out for a limit that does not limit anything. -/
def limitEntry (name : String) (isLimit : Bool) (value : Json) : List (String × Json) :=
  if isLimit then [(name, value)] else []

mutual

def entries : Kind → List (String × Json)
  | .integer min max =>
      ("kind", .text "Integer")
        :: (limitEntry "min" (min != Int64.minValue) (.integer min.toInt)
          ++ limitEntry "max" (max != Int64.maxValue) (.integer max.toInt))
  | .float min max =>
      ("kind", .text "Float")
        :: (limitEntry "min" (!min.numericEq (.limit true)) (.float min)
          ++ limitEntry "max" (!max.numericEq (.limit false)) (.float max))
  | .oneOf options => [("kind", .text "OneOf"), ("options", .ofTexts options)]
  | .declareId type base =>
      [("kind", .text "DeclareId"), ("type_name", .text type)]
        ++ base.toList.map fun base => ("base", .text base)
  | .useId type => [("kind", .text "UseId"), ("type_name", .text type)]
  | .nested schema => [("kind", .text "Nested"), ("schema", schemaToJson schema)]
  | .sequenceOf item => [("kind", .text "SequenceOf"), ("item", .object item.entries)]
  | .custom name _ => [("kind", .text "Custom"), ("name", .text name)]
  | .boolean => [("kind", .text "Boolean")]
  | .text => [("kind", .text "String")]
  | .duration => [("kind", .text "TimePeriod")]
termination_by structural kind => kind

def schemaToJson : Schema → Json
  | ⟨name, fields, constraints⟩ =>
      .object ([("name", .text name), ("fields", .object (fieldsToJson fields))]
        ++ if constraints.isEmpty then []
          else [("constraints", .array (constraints.map Constraint.toJson))])
termination_by structural schema => schema

def fieldsToJson : List (String × Field) → List (String × Json)
  | [] => []
  | (name, ⟨kind, required, default⟩) :: rest =>
      (name, .object (kind.entries ++ [("required", .bool required)]
        ++ default.toList.map fun value => ("default", value.toJson))) :: fieldsToJson rest
termination_by structural fields => fields

end

end Kind

def Field.toJson (field : Field) : Json :=
  .object (field.kind.entries ++ [("required", .bool field.required)]
    ++ field.default.toList.map fun value => ("default", value.toJson))

def Schema.toJson (schema : Schema) : Json := Kind.schemaToJson schema

end Firmware
