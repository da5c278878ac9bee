import Firmware.Code.Source
import Firmware.Instance
import Firmware.Routine.Fault
/-!
The code that the roles of an instance add after the instance's own: registration
as a runtime object, and the setup of a sensor.
-/

namespace Firmware

namespace Role

def call (inst : Instance) (method : String) (args : List Expression) : Statement :=
  .expression (.method (.ofIdentifier inst.id) method args)

/-- The field that overrides the setup priority of a runtime object. -/
def setupPriority : String := "setup_priority"

/-- Registers an instance as a runtime object, with its priority if it has one.  An
object is registered at most once. -/
def registerComponent (inst : Instance) (code : Code) : Except RoutineFault Code :=
  let code :=
    match (inst.config.get? setupPriority).bind Value.number? with
    | some priority => code.add (call inst "set_setup_priority" [.float priority])
    | none => code
  if code.isRegistered inst.id.name then
    .error (.alreadyRegistered inst.id.name)
  else .ok (code.register inst.id)

def filledText? (config : Node) (field : String) : Option String :=
  ((config.get? field).bind Value.text?).filter fun text => !text.isEmpty

/-- The call that sets a property of a sensor, if there is a value to set. -/
def setter (inst : Instance) (method : String) (value : Option Expression) :
    List Statement :=
  value.toList.map fun value => call inst method [value]

/-- The call that sets a flag of a sensor, if the field is true. -/
def flag (inst : Instance) (method field : String) : List Statement :=
  setter inst method
    (((inst.config.get? field).bind Value.bool?).bind fun on =>
      if on then some (.bool true) else none)

/-- A number of milliseconds as an integer; one too large is the largest integer. -/
def millisecondsLiteral (milliseconds : UInt64) : Expression :=
  .integer (Int64.ofIntClamp milliseconds.toNat)

/-- The calls that hand the measurement properties of an instance to its sensor,
and the one that registers the sensor. -/
def sensorStatements (inst : Instance) : List Statement :=
  let config := inst.config
  let filled (method field : String) : List Statement :=
    setter inst method ((filledText? config field).map .text)
  setter inst "set_name" (((config.get? "name").bind Value.text?).map .text)
    ++ flag inst "set_internal" "internal"
    ++ filled "set_unit_of_measurement" "unit_of_measurement"
    ++ filled "set_icon" "icon"
    ++ filled "set_device_class" "device_class"
    ++ setter inst "set_accuracy_decimals"
      (((config.get? "accuracy_decimals").bind Value.integer?).map .integer)
    ++ setter inst "set_state_class"
      ((filledText? config "state_class").map fun text =>
        .raw ("sensor::STATE_CLASS_" ++ Text.upper text))
    ++ flag inst "set_force_update" "force_update"
    ++ setter inst "set_expire_after"
      (((config.get? "expire_after").bind Value.milliseconds?).map millisecondsLiteral)
    ++ [Code.appCall "register_sensor" [.ofIdentifier inst.id]]

end Role

namespace Capability

def emit (inst : Instance) (code : Code) : Capability → Except RoutineFault Code
  | .schedulable => Role.registerComponent inst code
  | .measurable => .ok ((Role.sensorStatements inst).foldl Code.add code)

def emitAll (inst : Instance) (code : Code) : Except RoutineFault Code :=
  inst.declaration.capabilities.foldlM (emit inst) code

end Capability

end Firmware
