import Firmware.Double.Layout
import Firmware.Identifier.Name
/-!
Why a field refuses a value.
-/

namespace Firmware

/-- Why a value has no normalized form of some kind. -/
inductive Refusal
  /-- The value stands for nothing of the kind. -/
  | unlike (expected found : String)
  | integerOutside (min max value : Int64)
  | numberOutside (min max value : Double)
  | noOption (options : List String) (text : String)
  | negativeCount (milliseconds : Int64)
  | noTimeUnit (text : String)
  | noAmount (text : String)
  | negativeAmount (text : String)
  | unknownTimeUnit (unit : String)
  | badName (name : String) (fault : NameFault)
  /-- A supplied check refuses the value, for reasons of its own. -/
  | byCheck (reason : String)
deriving DecidableEq, Repr

namespace Refusal

/-- A number out of its range, which includes both limits. -/
def outside (value min max : String) : String :=
  value ++ " is outside the range [" ++ min ++ ", " ++ max ++ "]"

def message : Refusal → String
  | .unlike expected found => "expected " ++ expected ++ ", found " ++ found
  | .integerOutside min max value =>
      outside (toString value.toInt) (toString min.toInt) (toString max.toInt)
  | .numberOutside min max value =>
      outside (Layout.plain.write value) (Layout.plain.write min) (Layout.plain.write max)
  | .noOption options text => "`" ++ text ++ "` is not one of " ++ Text.quotedList options
  | .negativeCount milliseconds =>
      toString milliseconds.toInt ++ " is not a positive duration"
  | .noTimeUnit text => "`" ++ text ++ "` lacks a time unit"
  | .noAmount text => "`" ++ text ++ "` is not a duration"
  | .negativeAmount text => "`" ++ text ++ "` is not a positive duration"
  | .unknownTimeUnit unit => "`" ++ unit ++ "` is not a time unit"
  | .badName name fault => fault.message name
  | .byCheck reason => reason

end Refusal

end Firmware
