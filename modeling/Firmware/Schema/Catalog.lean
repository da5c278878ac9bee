import Firmware.Schema.Composition
/-!
The schemas of component kinds.
-/

namespace Firmware

/-- The schemas of component kinds, in the order of their definition. -/
structure Catalog where
  schemas : Table String Schema

namespace Catalog

def empty : Catalog := ⟨[]⟩

/-- Stores the schema of a kind, in place if the kind is defined. -/
def insert (catalog : Catalog) (kind : String) (schema : Schema) : Catalog :=
  ⟨Table.insert catalog.schemas kind schema⟩

def contains (catalog : Catalog) (kind : String) : Bool := Table.contains catalog.schemas kind

/-- Defines the schema of a new kind, on top of a base schema if there is one. -/
def define (catalog : Catalog) (kind : String) (fields : Table String Field)
    (base : Option Schema) : Except Problem (Schema × Catalog) :=
  if catalog.contains kind then
    .error (.conflict ("the schema of `" ++ kind ++ "` is already defined"))
  else
    let start := (base.map (·.rename kind)).getD (.empty kind)
    (start.extend fields).map fun schema => (schema, catalog.insert kind schema)

def find (catalog : Catalog) (kind : String) : Except Problem Schema :=
  match Table.get? catalog.schemas kind with
  | some schema => .ok schema
  | none => .error ⟨.unknownKind, none, "no schema is defined for `" ++ kind ++ "`"⟩

end Catalog

end Firmware
