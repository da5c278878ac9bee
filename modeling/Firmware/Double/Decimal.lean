import Firmware.Double.Basic
/-!
Decimal numerals of binary64 numbers: the number nearest to a numeral, and the
shortest numeral that reads back as a given number.
-/

namespace Firmware

/-- The non-negative decimal `digits * 10 ^ exponent`. -/
structure Decimal where
  digits : Nat
  exponent : Int
deriving DecidableEq, Repr

namespace Decimal

/-- How many decimal digits a natural number is written with. -/
def width (n : Nat) : Nat := (Nat.toDigits 10 n).length

/-- The number of the given sign nearest to a decimal.  Decimals far outside the
range of binary64 are settled by their width alone. -/
def toDouble (negative : Bool) (decimal : Decimal) : Double :=
  let top := (width decimal.digits : Int) + decimal.exponent
  if decimal.digits = 0 ∨ top < -400 then .zero negative
  else if 400 < top then .infinite negative
  else if 0 ≤ decimal.exponent then
    .nearest negative (decimal.digits * Nat.pow 10 decimal.exponent.toNat) 1
  else .nearest negative decimal.digits (Nat.pow 10 (-decimal.exponent).toNat)

/-- Whether a decimal reads back as the positive number of the given rank. -/
def readsAs (rank : Fin Double.rankCount) (decimal : Decimal) : Bool :=
  decide (decimal.toDouble false = .finite false rank)

/-- The position of the decimal point of a positive number of quanta: the value
lies in `[10 ^ (point - 1), 10 ^ point)`. -/
def point (quanta : Nat) : Int :=
  if Double.one ≤ quanta then width (quanta / Double.one)
  else 1 - (width ((Double.one - 1) / quanta) : Int)

/-- Which neighbour wins when both are equally near. -/
inductive Tie
  | up
  | toEven
deriving DecidableEq, Repr

/-- The two neighbours of a value on the decimal grid of the given exponent, the
nearer one first. -/
def neighbours (tie : Tie) (quanta : Nat) (exponent : Int) : List Decimal :=
  let dividend := if 0 ≤ exponent then quanta else quanta * Nat.pow 10 (-exponent).toNat
  let divisor :=
    if 0 ≤ exponent then Double.one * Nat.pow 10 exponent.toNat else Double.one
  let below := dividend / divisor
  let twice := 2 * (dividend % divisor)
  let low : Decimal := ⟨below, exponent⟩
  let high : Decimal := ⟨below + 1, exponent⟩
  let lowFirst :=
    twice < divisor || (twice == divisor && tie == .toEven && below % 2 == 0)
  if lowFirst then [low, high] else [high, low]

/-- Every digit of a number of quanta, which are multiples of `2 ^ -1074`. -/
def exact (quanta : Nat) : Decimal := ⟨quanta * Nat.pow 5 1074, -1074⟩

/-- Moves trailing zero digits into the exponent. -/
def trimmed (decimal : Decimal) : Decimal :=
  let zeros := ((Nat.toDigits 10 decimal.digits).reverse.takeWhile (· == '0')).length
  if decimal.digits = 0 then decimal
  else ⟨decimal.digits / Nat.pow 10 zeros, decimal.exponent + zeros⟩

/-- The decimal with the fewest digits that reads back as the positive number of
the given rank, and among those the nearest to it. -/
def shortest (tie : Tie) (rank : Fin Double.rankCount) : Decimal :=
  let quanta := Double.quanta rank.val
  let found := (List.range 17).findSome? fun (digits : Nat) =>
    (neighbours tie quanta (point quanta - ((digits + 1 : Nat) : Int))).find? (readsAs rank)
  (found.getD (exact quanta)).trimmed

end Decimal

end Firmware
