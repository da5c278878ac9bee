/-!
Why the emission of an instance fails.
-/

namespace Firmware

/-- Why a routine fails, or a role that is emitted after it. -/
inductive RoutineFault
  | noLocal (name : String)
  | noLiteral (field : String)
  /-- A suspension that no variable can end. -/
  | idleSuspension
  | alreadyRegistered (name : String)
  /-- The routine fails by itself. -/
  | raised (text : String)
deriving DecidableEq, Repr

def RoutineFault.message : RoutineFault → String
  | .noLocal name => "no local " ++ name
  | .noLiteral field => "no literal " ++ field
  | .idleSuspension => "the routine suspended without awaiting a variable"
  | .alreadyRegistered name => "`" ++ name ++ "` is already registered"
  | .raised text => text

end Firmware
