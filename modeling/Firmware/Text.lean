import Firmware.Double.Decimal
/-!
Text rules shared by the readers: blanks, letter case of ASCII, numerals, lines and
qualified names.  All of them work on lists of characters; the versions on
strings only convert.
-/

namespace Firmware

namespace Text

/-- The characters with the Unicode property `White_Space`. -/
def isBlank (c : Char) : Bool :=
  let n := c.val
  (0x09 ≤ n && n ≤ 0x0D) || n == 0x20 || n == 0x85 || n == 0xA0 || n == 0x1680
    || (0x2000 ≤ n && n ≤ 0x200A) || n == 0x2028 || n == 0x2029 || n == 0x202F
    || n == 0x205F || n == 0x3000

/-- Drops the blanks at both ends. -/
def trimChars (text : List Char) : List Char :=
  ((text.dropWhile isBlank).reverse.dropWhile isBlank).reverse

def trim (text : String) : String := String.ofList (trimChars text.toList)

/-- Lower case of the ASCII letters; other characters stay. -/
def lower (text : String) : String := String.ofList (text.toList.map Char.toLower)

/-- Upper case of the ASCII letters; other characters stay. -/
def upper (text : String) : String := String.ofList (text.toList.map Char.toUpper)

/-- Equality up to the case of ASCII letters. -/
def sameLetters (left right : String) : Bool := lower left == lower right

/-- The value of a list of decimal digits, the first one weighing most. -/
def digitsValue (digits : List Char) : Nat :=
  digits.foldl (fun value c => 10 * value + (c.toNat - '0'.toNat)) 0

/-- A sign and what follows it; no sign means plus. -/
def splitSign : List Char → Bool × List Char
  | '-' :: rest => (true, rest)
  | '+' :: rest => (false, rest)
  | text => (false, text)

/-- Reads an integer: an optional sign and one or more digits, nothing else. -/
def readInt? (text : List Char) : Option Int :=
  let (negative, digits) := splitSign text
  if digits.isEmpty || !digits.all Char.isDigit then none
  else
    let magnitude : Int := digitsValue digits
    some (if negative then -magnitude else magnitude)

/-- The 64-bit word that holds an integer, if it is in range. -/
def word? (value : Int) : Option Int64 :=
  if Int64.minValue.toInt ≤ value ∧ value ≤ Int64.maxValue.toInt then
    some (Int64.ofInt value)
  else none

/-- Reads a 64-bit integer; a value out of range is refused. -/
def readInt64? (text : String) : Option Int64 :=
  (readInt? text.toList).bind word?

def decimalOf (whole fraction : List Char) (exponent : Int) : Decimal where
  digits := digitsValue (whole ++ fraction)
  exponent := exponent - fraction.length

/-- Reads digits, an optional fraction and an optional exponent; at least one
digit is needed before the exponent, on either side of the point. -/
def readDecimal? (text : List Char) : Option Decimal := do
  let whole := text.takeWhile Char.isDigit
  let rest := text.dropWhile Char.isDigit
  let (fraction, rest) :=
    match rest with
    | '.' :: rest => (rest.takeWhile Char.isDigit, rest.dropWhile Char.isDigit)
    | rest => ([], rest)
  if whole.isEmpty && fraction.isEmpty then none
  match rest with
  | [] => some (decimalOf whole fraction 0)
  | c :: rest =>
      if c == 'e' || c == 'E' then
        (readInt? rest).map (decimalOf whole fraction)
      else none

/-- Reads a binary64 number: an optional sign, then a decimal or, in any letter
case, `inf`, `infinity` or `nan`. -/
def readDouble? (text : String) : Option Double :=
  let (negative, rest) := splitSign text.toList
  let word := rest.map Char.toLower
  if word == "inf".toList || word == "infinity".toList then some (.infinite negative)
  else if word == "nan".toList then some .nan
  else (readDecimal? rest).map (·.toDouble negative)

/-- The pieces between the occurrences of a character. -/
def splitOn (separator : Char) : List Char → List (List Char)
  | [] => [[]]
  | c :: rest =>
      if c = separator then [] :: splitOn separator rest
      else
        match splitOn separator rest with
        | [] => [[c]]
        | piece :: pieces => (c :: piece) :: pieces

/-- The lines of a text.  A line ends in a line feed, which a carriage return may
precede; an empty last line does not count. -/
def lines (text : String) : List String :=
  let pieces := splitOn '\n' text.toList
  let ended := pieces.dropLast.map fun line =>
    if line.getLast? = some '\r' then line.dropLast else line
  let final := pieces.getLast?.getD []
  (ended ++ if final.isEmpty then [] else [final]).map String.ofList

/-- Whether `::` occurs in a name. -/
def isQualified : List Char → Bool
  | ':' :: ':' :: _ => true
  | _ :: rest => isQualified rest
  | [] => false

/-- What follows the last `::` of the remaining text, or `current` if there is
none. -/
def lastSegmentFrom (current : List Char) : List Char → List Char
  | ':' :: ':' :: rest => lastSegmentFrom rest (':' :: rest)
  | _ :: rest => lastSegmentFrom current rest
  | [] => current

def lastSegment (name : List Char) : List Char := lastSegmentFrom name name

/-- Replaces every occurrence of a non-empty pattern, from the left.  The counter
holds how many characters of the last occurrence are still to be passed over. -/
def replaceFrom (pattern replacement : List Char) : Nat → List Char → List Char
  | _, [] => []
  | pending + 1, _ :: rest => replaceFrom pattern replacement pending rest
  | 0, c :: rest =>
      if pattern.isPrefixOf (c :: rest) then
        replacement ++ replaceFrom pattern replacement (pattern.length - 1) rest
      else c :: replaceFrom pattern replacement 0 rest

/-- Replaces every occurrence of a non-empty pattern, from the left. -/
def replace (text pattern replacement : String) : String :=
  String.ofList (replaceFrom pattern.toList replacement.toList 0 text.toList)

/-- Names in backquotes, separated by commas. -/
def quotedList (names : List String) : String :=
  ", ".intercalate (names.map fun name => "`" ++ name ++ "`")

end Text

end Firmware
