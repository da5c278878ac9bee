import Firmware.OrderedSet
import Firmware.Validation.Basic
/-!
Composition of schemas.  A schema made on top of others holds the fields of all of
them; nothing links it to them afterwards.  Defaults are normalized when a field is
taken in, so a schema never holds a default that its own kind refuses.
-/

namespace Firmware

/-- The problem of a schema that cannot be made. -/
def Problem.conflict (message : String) : Problem := ⟨.schemaConflict, none, message⟩

namespace Schema

def normalizedField (schemaName name : String) (field : Field) : Except Problem Field :=
  match field.default with
  | none => .ok field
  | some value =>
      match field.kind.convert (Path.root.field name) name value with
      | .ok value => .ok { field with default := some value }
      | .error _ =>
          .error (.conflict ("the default of `" ++ name ++ "` in `" ++ schemaName
            ++ "` is not a valid `" ++ field.kind.label ++ "`"))

/-- Takes in a field.  It replaces a field of its name in place, if the kinds are
compatible, and otherwise comes last. -/
def mergeField (schema : Schema) (name : String) (field : Field) : Except Problem Schema := do
  let field ← normalizedField schema.name name field
  let merged : Schema := { schema with fields := Table.insert schema.fields name field }
  match schema.field? name with
  | none => .ok merged
  | some previous =>
      if previous.kind.compatible field.kind then .ok merged
      else
        .error (.conflict ("`" ++ schema.name ++ "` redefines the field `" ++ name
          ++ "` from `" ++ previous.kind.label ++ "` to `" ++ field.kind.label ++ "`"))

/-- Takes in fields one after another, up to the first that does not fit. -/
def extend (schema : Schema) (fields : Table String Field) : Except Problem Schema :=
  fields.foldlM (fun schema entry => schema.mergeField entry.1 entry.2) schema

def ofFields (name : String) (fields : Table String Field) : Except Problem Schema :=
  (Schema.empty name).extend fields

/-- Adds a constraint, all of whose fields have to be declared. -/
def addConstraint (schema : Schema) (constraint : Constraint) : Except Problem Schema :=
  match constraint.fields.find? fun name => !Table.contains schema.fields name with
  | some name =>
      .error (.conflict ("a constraint of `" ++ schema.name
        ++ "` mentions the undeclared field `" ++ name ++ "`"))
  | none => .ok { schema with constraints := schema.constraints ++ [constraint] }

/-- Takes in the fields of another schema, and those of its constraints that are
new. -/
def merge (schema other : Schema) : Except Problem Schema :=
  (schema.extend other.fields).map fun merged =>
    { merged with constraints := other.constraints.foldl OrderedSet.add merged.constraints }

end Schema

end Firmware
