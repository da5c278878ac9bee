import Firmware.Json.Basic
import Firmware.Text
/-!
JSON numbers: how they are written, and what value they have.

A number without point and exponent is an integer as long as its digits fit a
64-bit word.  Every other number is binary64, and its value is defined by steps
that round: the word of the leading digits becomes a binary64 number, and that
number is multiplied or divided by a power of ten.  The outcome may therefore lie
beside the binary64 number nearest to the numeral.
-/

namespace Firmware

namespace Json

/-- A number as it is written: its sign, the digits before and behind the point,
and the exponent.  A written point has digits behind it. -/
structure Numeral where
  negative : Bool
  whole : List Char
  fraction : List Char
  exponent : Option Int
deriving DecidableEq, Repr

/-- Reads what may follow the digits: nothing, or an exponent. -/
def exponent? : List Char → Option (Option Int)
  | [] => some none
  | c :: rest => if c == 'e' || c == 'E' then (Text.readInt? rest).map some else none

/-- Reads a number: no leading zeros, and digits on both sides of a point. -/
def numeral? (text : List Char) : Option Numeral :=
  let (negative, rest) :=
    match text with
    | '-' :: rest => (true, rest)
    | rest => (false, rest)
  let whole := rest.takeWhile Char.isDigit
  if whole.isEmpty || (whole.head? == some '0' && 1 < whole.length) then none
  else
    match rest.dropWhile Char.isDigit with
    | '.' :: tail =>
        let fraction := tail.takeWhile Char.isDigit
        if fraction.isEmpty then none
        else (exponent? (tail.dropWhile Char.isDigit)).map (⟨negative, whole, fraction, ·⟩)
    | tail => (exponent? tail).map (⟨negative, whole, [], ·⟩)

/-- Appends digits to a 64-bit word, up to the first that no longer fits.  Gives
the word and the digits left over. -/
def appendDigits (word : Nat) : List Char → Nat × List Char
  | [] => (word, [])
  | c :: rest =>
      let next := 10 * word + (c.toNat - '0'.toNat)
      if next < UInt64.size then appendDigits next rest else (word, c :: rest)

/-- The decimal that the leading digits of a number amount to.  Whole digits left
over still count as places; a fraction digit may follow them if it fits. -/
def Numeral.leading (numeral : Numeral) : Decimal :=
  let (whole, wholeLeft) := appendDigits 0 numeral.whole
  let (word, fractionLeft) := appendDigits whole numeral.fraction
  let places : Int := wholeLeft.length + fractionLeft.length - numeral.fraction.length
  ⟨word, places + numeral.exponent.getD 0⟩

/-- Whether a number is written as an integer that fits a 64-bit word. -/
def Numeral.isWord (numeral : Numeral) : Bool :=
  numeral.fraction.isEmpty && numeral.exponent.isNone
    && (appendDigits 0 numeral.whole).2.isEmpty

/-- The product with a power of ten, or the quotient by the opposite power.  The
power is rounded to binary64 first, and the outcome is rounded again. -/
def timesPowerOfTen (number : Double) (exponent : Int) : Double :=
  if 0 ≤ exponent then number.mul (.ofInt (Nat.pow 10 exponent.toNat))
  else number.div (.ofInt (Nat.pow 10 (-exponent).toNat))

/-- The greatest power of ten that is a binary64 number. -/
def greatestPower : Int := 308

/-- The binary64 value of a decimal whose digits fit a 64-bit word.  Exponents
below the reach of one division take two, and two always suffice: the second
quotient by the greatest power of ten is zero. -/
def stepwise (negative : Bool) (decimal : Decimal) : Double :=
  let number := Double.nearest negative decimal.digits 1
  if decimal.digits = 0 ∨ decimal.exponent < -(2 * greatestPower) then .zero negative
  else if greatestPower < decimal.exponent then .infinite negative
  else if decimal.exponent < -greatestPower then
    timesPowerOfTen (timesPowerOfTen number (-greatestPower))
      (decimal.exponent + greatestPower)
  else timesPowerOfTen number decimal.exponent

/-- A floating-point value; there is none beyond the finite numbers. -/
def float? (number : Double) : Option Json :=
  if number.isFinite then some (.float number) else none

/-- The value of an integer of one 64-bit word.  Negative zero and integers below
the signed words are floating-point numbers. -/
def integer? (negative : Bool) (word : Nat) : Option Json :=
  let value : Int := if negative then -word else word
  if (negative && word == 0) || decide (value < Int64.minValue.toInt) then
    float? (.nearest negative word 1)
  else some (.integer value)

/-- The value of a number, unless it lies beyond the finite numbers. -/
def Numeral.value? (numeral : Numeral) : Option Json :=
  let decimal := numeral.leading
  if numeral.isWord then integer? numeral.negative decimal.digits
  else float? (stepwise numeral.negative decimal)

end Json

end Firmware
