import Firmware.Failure
import Firmware.Role
import Firmware.Schema.Composition
/-!
The schemas that components share: that of runtime objects, and that of sensors.
-/

namespace Firmware

structure SensorDefaults where
  type : String
  unitOfMeasurement : String
  icon : String
  accuracyDecimals : Int64
  stateClass : String
  deviceClass : String

def SensorDefaults.ofType (type : String) : SensorDefaults := ⟨type, "", "", 0, "", ""⟩

namespace Builtin

/-- Failures to make a schema are failures of the registry. -/
def registered {α : Type} (made : Except Problem α) : Except Failure α :=
  made.mapError (.ofProblem .registry)

/-- The schema shared by all runtime objects. -/
def componentSchema : Except Failure Schema :=
  registered (Schema.ofFields "component" [(Role.setupPriority, .optional .anyFloat)])

def stateClasses : List String := ["", "measurement", "total_increasing", "total"]

/-- The schema shared by all sensors. -/
def sensorSchema (defaults : SensorDefaults) : Except Failure Schema :=
  registered (Schema.ofFields "sensor"
    [(Schema.idFieldName, .optional (.declareId defaults.type (some "sensor"))),
      ("name", .optional .text),
      ("internal", .withDefault .boolean (.bool false)),
      ("unit_of_measurement", .withDefault .text (.text defaults.unitOfMeasurement)),
      ("icon", .withDefault .text (.text defaults.icon)),
      ("accuracy_decimals",
        .withDefault (.integer (-3) 8) (.integer defaults.accuracyDecimals)),
      ("state_class", .withDefault (.oneOf stateClasses) (.text defaults.stateClass)),
      ("device_class", .withDefault .text (.text defaults.deviceClass)),
      ("force_update", .withDefault .boolean (.bool false)),
      ("expire_after", .optional .duration)])

end Builtin

end Firmware
