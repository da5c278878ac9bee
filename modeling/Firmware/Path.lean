/-!
Locations inside a configuration document, written as `sensor[0].filters[1]`.
-/

namespace Firmware

/-- One step into a document: under a key of a mapping, or to a position of a
sequence. -/
inductive Segment
  | key (name : String)
  | index (position : Nat)
deriving DecidableEq, Repr

/-- The location of a value, as the steps that lead to it from the document
root. -/
abbrev Path := List Segment

namespace Segment

/-- Keys come before positions; keys compare by their characters. -/
def compare : Segment → Segment → Ordering
  | .key a, .key b => Ord.compare a b
  | .key _, .index _ => .lt
  | .index _, .key _ => .gt
  | .index a, .index b => Ord.compare a b

/-- The characters of a segment; a key that is not first follows a point. -/
def chars (first : Bool) : Segment → List Char
  | .key name => if first then name.toList else '.' :: name.toList
  | .index position => '[' :: Nat.toDigits 10 position ++ [']']

end Segment

namespace Path

def root : Path := []

def field (path : Path) (name : String) : Path := path ++ [.key name]

def index (path : Path) (position : Nat) : Path := path ++ [.index position]

def lastKey? (path : Path) : Option String :=
  path.reverse.findSome? fun
    | .key name => some name
    | .index _ => none

/-- Segment by segment, a proper beginning first. -/
def compare : Path → Path → Ordering
  | [], [] => .eq
  | [], _ :: _ => .lt
  | _ :: _, [] => .gt
  | a :: left, b :: right => (a.compare b).then (compare left right)

/-- The characters of a location that is not the root. -/
def chars : Path → List Char
  | [] => []
  | segment :: rest => segment.chars true ++ rest.flatMap (Segment.chars false)

def render (path : Path) : String :=
  if path.isEmpty then "<root>" else String.ofList path.chars

end Path

end Firmware
