import Firmware.Builtin.Schema
import Firmware.Component
import Firmware.Schema.Catalog
/-!
The components that come with the library: a hub, and the sensors attached to it.
-/

namespace Firmware

namespace Builtin

def hubKind : String := "example_component"

def sensorKind : String := "sensor"

def hubType : String := "example_component::ExampleComponent"

def sensorType : String := "example_component::ExampleSensor"

/-- The header that declares the types. -/
def header : String := "example_component.h"

/-- The field by which a sensor refers to its hub. -/
def parentField : String := "example_component_id"

/-- Declares the variable of the hub. -/
def hubRoutine : Routine := fun _ _ => [.act (.header header), .act (.declare .own [])]

/-- Declares the variable of a sensor, and attaches it to its hub once that is
there. -/
def sensorRoutine : Routine := fun _ config =>
  [.act (.header header), .act (.declare .own [])]
    ++ match config.slotName? parentField with
      | some hub =>
          [.await hub (some "parent"),
            .act (.add (.method .self "set_parent" [.bound "parent"]))]
      | none => []

/-- Defines the hub, of which there is one. -/
def hub (catalog : Catalog) : Except Failure (Component × Catalog) := do
  let base ← componentSchema
  let (schema, catalog) ← registered (catalog.define hubKind
    [(Schema.idFieldName, .optional (.declareId hubType none))] (some base))
  let declaration : Declaration :=
    { Declaration.ofSchema hubKind schema with
      capabilities := [.schedulable]
      isMulti := false }
  .ok (⟨declaration, hubRoutine, false⟩, catalog)

/-- Defines the sensors, which report two decimals of a measurement. -/
def sensor (catalog : Catalog) : Except Failure (Component × Catalog) := do
  let defaults : SensorDefaults :=
    { SensorDefaults.ofType sensorType with
      accuracyDecimals := 2
      stateClass := "measurement" }
  let base ← registered ((← sensorSchema defaults).merge (← componentSchema))
  let (schema, catalog) ← registered (catalog.define sensorKind
    [(parentField, .optional (.useId hubType))] (some base))
  let declaration : Declaration :=
    { Declaration.ofSchema sensorKind schema with
      dependencies := [hubKind]
      capabilities := [.measurable, .schedulable] }
  .ok (⟨declaration, sensorRoutine, false⟩, catalog)

def components : Except Failure Components := do
  let (hub, catalog) ← hub .empty
  let components ← Components.empty.add hub
  let (sensor, _) ← sensor catalog
  components.add sensor

end Builtin

end Firmware
