/-!
Binary64 numbers as exact data.

A finite number is a sign and a *rank*: the position of its magnitude in the
increasing list of all finite magnitudes, zero first.  Ranks compare as the
magnitudes do, every rank below `Double.rankCount` is a number, and the value of
a rank is a whole number of *quanta* of size `2 ^ -1074`.  So rounding, order and
arithmetic are statements about natural numbers.
-/

namespace Firmware

/-- How many magnitudes are one binade. -/
def Double.binadeCount : Nat := Nat.pow 2 52

/-- How many magnitudes a finite number can have. -/
def Double.rankCount : Nat := 2047 * Double.binadeCount

/-- A binary64 number.  All not-a-number payloads are one value, and the two
zeros are different values. -/
inductive Double
  | nan
  | infinite (negative : Bool)
  | finite (negative : Bool) (rank : Fin Double.rankCount)
deriving DecidableEq, Repr

namespace Double

/-- How many quanta make the unit one. -/
def one : Nat := Nat.pow 2 1074

/-- The magnitude of a rank, counted in quanta.  The first `2 ^ 52` ranks are the
subnormal numbers; every later block of `2 ^ 52` ranks is one binade. -/
def quanta (rank : Nat) : Nat :=
  if rank < binadeCount then rank
  else (binadeCount + rank % binadeCount) * Nat.pow 2 (rank / binadeCount - 1)

/-- The quotient rounded to the nearest whole number, a tie to the even one. -/
def roundHalfEven (dividend divisor : Nat) : Nat :=
  let quotient := dividend / divisor
  let twice := 2 * (dividend % divisor)
  if twice < divisor then quotient
  else if divisor < twice then quotient + 1
  else quotient + quotient % 2

/-- The rank nearest to a ratio, a tie to the even significand.  The result may
lie past the last rank, when the ratio rounds to infinity. -/
def rankNear (numerator denominator : Nat) : Nat :=
  let scaled := numerator * one
  let binade := (scaled / denominator).log2 - 52
  binade * binadeCount + roundHalfEven scaled (denominator * Nat.pow 2 binade)

/-- The number of the given sign nearest to a ratio. -/
def nearest (negative : Bool) (numerator denominator : Nat) : Double :=
  let rank := rankNear numerator denominator
  if bounded : rank < rankCount then .finite negative ⟨rank, bounded⟩
  else .infinite negative

def zero (negative : Bool) : Double := .finite negative ⟨0, by decide⟩

/-- The greatest finite number, or the least one. -/
def limit (negative : Bool) : Double := .finite negative ⟨rankCount - 1, by decide⟩

def ofInt (value : Int) : Double := nearest (decide (value < 0)) value.natAbs 1

/-- The position of a number on the number line: signed ranks, with the
infinities just outside and both zeros at one place. -/
def position? : Double → Option Int
  | .nan => none
  | .infinite negative => some (if negative then -rankCount else rankCount)
  | .finite negative rank => some (if negative then -rank.val else rank.val)

/-- Numeric order; false as soon as one side is not a number. -/
def lt (left right : Double) : Bool :=
  match left.position?, right.position? with
  | some a, some b => decide (a < b)
  | _, _ => false

/-- Numeric equality: the zeros are equal and not-a-number differs from itself. -/
def numericEq (left right : Double) : Bool :=
  match left.position?, right.position? with
  | some a, some b => decide (a = b)
  | _, _ => false

def isFinite : Double → Bool
  | .finite _ _ => true
  | _ => false

/-- The integer a number equals, if it is a whole number. -/
def toInt? : Double → Option Int
  | .finite negative rank =>
      if quanta rank.val % one = 0 then
        let magnitude : Int := quanta rank.val / one
        some (if negative then -magnitude else magnitude)
      else none
  | _ => none

/-- The nearest natural number, a half going up; numbers outside the range of
64-bit words go to its nearest end, and not-a-number to zero. -/
def toUInt64Nearest : Double → UInt64
  | .infinite false => UInt64.ofNat (UInt64.size - 1)
  | .finite false rank =>
      UInt64.ofNat (min (UInt64.size - 1) ((2 * quanta rank.val + one) / (2 * one)))
  | _ => 0

/-- The product, rounded to the nearest number. -/
def mul : Double → Double → Double
  | .finite a left, .finite b right =>
      nearest (a != b) (quanta left.val * quanta right.val) (one * one)
  | .infinite a, .infinite b => .infinite (a != b)
  | .infinite a, .finite b rank | .finite a rank, .infinite b =>
      if rank.val = 0 then .nan else .infinite (a != b)
  | .nan, _ | _, .nan => .nan

/-- The quotient, rounded to the nearest number. -/
def div : Double → Double → Double
  | .finite a left, .finite b right =>
      if right.val = 0 then if left.val = 0 then .nan else .infinite (a != b)
      else nearest (a != b) (quanta left.val) (quanta right.val)
  | .infinite _, .infinite _ => .nan
  | .infinite a, .finite b _ => .infinite (a != b)
  | .finite a _, .infinite b => .zero (a != b)
  | .nan, _ | _, .nan => .nan

end Double

end Firmware
