import Firmware.Value.Basic
/-!
Schemas: which fields a mapping may have, which kind of value each of them holds,
and which constraints hold between them.
-/

namespace Firmware

/-- A conversion that is supplied with a schema.  The tag is its identity: two
checks with one tag are taken for the same. -/
structure Check where
  tag : String
  run : Value → Except String Value

/-- A rule about which fields are present together. -/
inductive Constraint
  | requires (field required : String)
  | exclusive (fields : List String)
  | atLeastOne (fields : List String)
  | exactlyOne (fields : List String)
  | inclusive (fields : List String)
deriving DecidableEq, Repr

mutual

/-- What the value of a field may be, and what it is normalized to. -/
inductive Kind
  | boolean
  | integer (min max : Int64)
  | float (min max : Double)
  | text
  | oneOf (options : List String)
  | duration
  | declareId (type : String) (base : Option String)
  | useId (type : String)
  | nested (schema : Schema)
  | sequenceOf (item : Kind)
  | custom (name : String) (check : Check)

/-- A field: the kind of its values, whether it has to be present, and the value
it has when it is absent. -/
structure Field where
  kind : Kind
  required : Bool
  default : Option Value

/-- The fields of a mapping by name, and the constraints between them. -/
structure Schema where
  name : String
  fields : List (String × Field)
  constraints : List Constraint

end

namespace Constraint

def fields : Constraint → List String
  | .requires field required => [field, required]
  | .exclusive fields | .atLeastOne fields | .exactlyOne fields | .inclusive fields => fields

end Constraint

namespace Kind

def anyInteger : Kind := .integer Int64.minValue Int64.maxValue

/-- Any finite number. -/
def anyFloat : Kind := .float (.limit true) (.limit false)

def label : Kind → String
  | .boolean => "Boolean"
  | .integer _ _ => "Integer"
  | .float _ _ => "Float"
  | .text => "String"
  | .oneOf _ => "OneOf"
  | .duration => "TimePeriod"
  | .declareId _ _ => "DeclareId"
  | .useId _ => "UseId"
  | .nested _ => "Nested"
  | .sequenceOf _ => "SequenceOf"
  | .custom _ _ => "Custom"

/-- Whether a field of one kind may be redefined with the other: limits, options
and types may change, the kind itself and that of the items may not. -/
def compatible : Kind → Kind → Bool
  | .sequenceOf a, .sequenceOf b => a.compatible b
  | a, b => a.label == b.label

/-- The type that a declaring kind gives to its identifiers. -/
def declaredType? : Kind → Option String
  | .declareId type _ => some type
  | _ => none

end Kind

namespace Field

def mandatory (kind : Kind) : Field := ⟨kind, true, none⟩

def optional (kind : Kind) : Field := ⟨kind, false, none⟩

/-- A field that has a value even when it is absent. -/
def withDefault (kind : Kind) (value : Value) : Field := ⟨kind, false, some value⟩

end Field

namespace Schema

def empty (name : String) : Schema := ⟨name, [], []⟩

def rename (schema : Schema) (name : String) : Schema := { schema with name }

def field? (schema : Schema) (name : String) : Option Field := Table.get? schema.fields name

/-- The usual name of the field that declares the identifier of an instance. -/
def idFieldName : String := "id"

/-- The name and the declared type of the field that declares the identifier of an
instance: the usual one, or else the first field that declares one. -/
def idField? (schema : Schema) : Option (String × String) :=
  match (schema.field? idFieldName).bind (·.kind.declaredType?) with
  | some type => some (idFieldName, type)
  | none =>
      schema.fields.findSome? fun (name, field) =>
        field.kind.declaredType?.map fun type => (name, type)

end Schema

end Firmware
