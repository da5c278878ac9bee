import Firmware.Validation.Refusal
import Firmware.Value.Basic
/-!
What single values stand for: the boolean, number, text, duration or identifier
that a field of that kind takes from a value.
-/

namespace Firmware

namespace Value

/-- The words for true, in lower case.  The case of the letters does not count. -/
def trueWords : List String := ["true", "yes", "on", "enable"]

/-- The words for false, likewise. -/
def falseWords : List String := ["false", "no", "off", "disable"]

def asBool? : Value → Option Bool
  | .bool value => some value
  | .text value =>
      let word := Text.lower value
      if trueWords.contains word then some true
      else if falseWords.contains word then some false
      else none
  | _ => none

/-- The integer that a value stands for.  A whole number out of the range of
64-bit words goes to the nearest end of that range. -/
def asInteger? : Value → Option Int64
  | .integer value => some value
  | .float value => value.toInt?.map Int64.ofIntClamp
  | .text value => Text.readInt64? (Text.trim value)
  | _ => none

def asNumber? : Value → Option Double
  | .text value => Text.readDouble? (Text.trim value)
  | value => value.number?

def asText? : Value → Option String
  | .text value => some value
  | .integer value => some (toString value.toInt)
  | .float value => some (Layout.plain.write value)
  | .bool value => some (toString value)
  | _ => none

def asChoice? : Value → Option String
  | .text value => some value
  | .integer value => some (toString value.toInt)
  | _ => none

/-- The units of time with their lengths in milliseconds. -/
def timeUnits : Table String Double :=
  [("us", (Decimal.mk 1 (-3)).toDouble false), ("ms", .ofInt 1), ("s", .ofInt 1000),
    ("sec", .ofInt 1000), ("min", .ofInt 60000), ("h", .ofInt 3600000),
    ("d", .ofInt 86400000)]

/-- The milliseconds of a duration written as an amount and a unit. -/
def durationOfText (text : String) : Except Refusal UInt64 :=
  let trimmed := Text.trimChars text.toList
  let shown := String.ofList trimmed
  let amount := trimmed.takeWhile fun c => !c.isAlpha
  let unit := trimmed.dropWhile fun c => !c.isAlpha
  if unit.isEmpty then .error (.noTimeUnit shown)
  else
    match Text.readDouble? (String.ofList (Text.trimChars amount)) with
    | none => .error (.noAmount shown)
    | some amount =>
        if amount.lt (.zero false) || !amount.isFinite then
          .error (.negativeAmount shown)
        else
          match Table.get? timeUnits (String.ofList (Text.trimChars unit)) with
          | none => .error (.unknownTimeUnit (String.ofList unit))
          | some scale => .ok (amount.mul scale).toUInt64Nearest

/-- The duration that a value stands for: a number of milliseconds, or an amount
with a unit. -/
def asDuration : Value → Except Refusal UInt64
  | .duration milliseconds => .ok milliseconds
  | .integer milliseconds =>
      if milliseconds < 0 then .error (.negativeCount milliseconds)
      else .ok milliseconds.toUInt64
  | .text value => durationOfText value
  | value => .error (.unlike "a duration" value.describe)

/-- The slot that a value declares: under a chosen name, or as it stands. -/
def asDeclaration (type : String) (base : Option String) : Value → Except Refusal Slot
  | .text name =>
      match nameFault? name with
      | some fault => .error (.badName name fault)
      | none => .ok (.explicit name type)
  | .identifier ⟨name, _, own, true⟩ =>
      .ok ⟨name, type, if name.isNone then base else own, true⟩
  | value => .error (.unlike "an id" value.describe)

def asReference (type : String) : Value → Except Refusal Slot
  | .text name =>
      match nameFault? name with
      | some fault => .error (.badName name fault)
      | none => .ok (.reference name type)
  | .identifier ⟨name, own, base, false⟩ => .ok ⟨name, own, base, false⟩
  | value => .error (.unlike "a reference to an id" value.describe)

/-- The result of a conversion if there is one, and otherwise what was expected
instead of the value. -/
def expect {α : Type} (value : Value) (expected : String) : Option α → Except Refusal α
  | some result => .ok result
  | none => .error (.unlike expected value.describe)

/-- The items of a sequence; any other value is a sequence of itself. -/
def items : Value → List Value
  | .sequence items => items
  | value => [value]

end Value

end Firmware
