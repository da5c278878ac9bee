import Firmware.Double.Decimal
/-!
How binary64 numbers are written.  A layout fixes the decisions that the shortest
digits leave open; the project uses three of them.
-/

namespace Firmware

/-- The decisions of a written form. -/
structure Layout where
  /-- The least position of the decimal point written without an exponent. -/
  lowest : Option Int
  /-- The greatest position of the decimal point written without an exponent. -/
  highest : Option Int
  /-- Whether a whole number without an exponent ends in `.0`. -/
  keepsFraction : Bool
  /-- Whether a positive exponent has a plus sign. -/
  signsExponent : Bool
  /-- Which of two equally near shortest decimals is written. -/
  tie : Decimal.Tie
  /-- The text of not-a-number. -/
  notANumber : String
  /-- The text of an infinity, by its sign. -/
  infinity : Bool → String

namespace Layout

/-- Literals in generated code: an exponent outside `[1e-4, 1e16)`, and always a
fraction or an exponent. -/
def literal : Layout where
  lowest := some (-3)
  highest := some 16
  keepsFraction := true
  signsExponent := false
  tie := .up
  notANumber := "NaN"
  infinity := fun negative => if negative then "-inf" else "inf"

/-- Plain text, for messages and for numbers taken as strings: never an exponent
and no forced fraction. -/
def plain : Layout where
  lowest := none
  highest := none
  keepsFraction := false
  signsExponent := false
  tie := .up
  notANumber := "NaN"
  infinity := fun negative => if negative then "-inf" else "inf"

/-- JSON documents: an exponent outside `[1e-5, 1e16)`, and `null` for what JSON
cannot write. -/
def json : Layout where
  lowest := some (-4)
  highest := some 16
  keepsFraction := true
  signsExponent := true
  tie := .toEven
  notANumber := "null"
  infinity := fun _ => "null"

/-- Whether a decimal point at this position is written without an exponent. -/
def isPositional (layout : Layout) (point : Int) : Bool :=
  layout.lowest.all (· ≤ point) && layout.highest.all (point ≤ ·)

/-- Digits around a decimal point that stands `point` digits after the first. -/
def positional (layout : Layout) (digits : List Char) (point : Int) : List Char :=
  if point ≤ 0 then
    '0' :: '.' :: (List.replicate (-point).toNat '0' ++ digits)
  else if digits.length ≤ point.toNat then
    digits ++ List.replicate (point.toNat - digits.length) '0'
      ++ (if layout.keepsFraction then ['.', '0'] else [])
  else digits.take point.toNat ++ '.' :: digits.drop point.toNat

/-- One digit, the others as a fraction, and the exponent. -/
def scientific (layout : Layout) (digits : List Char) (point : Int) : List Char :=
  let fraction := if digits.length ≤ 1 then [] else '.' :: digits.drop 1
  let exponent := point - 1
  let sign :=
    if exponent < 0 then ['-'] else if layout.signsExponent then ['+'] else []
  digits.take 1 ++ fraction ++ 'e' :: sign ++ Nat.toDigits 10 exponent.natAbs

def magnitude (layout : Layout) (decimal : Decimal) : List Char :=
  let digits := Nat.toDigits 10 decimal.digits
  let point := (digits.length : Int) + decimal.exponent
  if layout.isPositional point then layout.positional digits point
  else layout.scientific digits point

def finite (layout : Layout) (rank : Fin Double.rankCount) : List Char :=
  if rank.val = 0 then
    if layout.keepsFraction then ['0', '.', '0'] else ['0']
  else layout.magnitude (Decimal.shortest layout.tie rank)

def write (layout : Layout) : Double → String
  | .nan => layout.notANumber
  | .infinite negative => layout.infinity negative
  | .finite negative rank =>
      String.ofList ((if negative then ['-'] else []) ++ layout.finite rank)

end Layout

end Firmware
