import Firmware.Text
/-!
The name that a type suggests for its variables.
-/

namespace Firmware

/-- Whether a word begins at an upper-case letter: after a lower-case letter or a
digit, or inside capitals when a lower-case letter follows. -/
def beginsWord (previous next : Option Char) : Bool :=
  previous.any (fun c => c.isLower || c.isDigit)
    || (previous.any Char.isUpper && next.any Char.isLower)

/-- Words in lower case, joined by single underscores.  `separated` tells whether
the last character written is an underscore. -/
def snakeCase (previous : Option Char) (separated : Bool) : List Char → List Char
  | [] => []
  | c :: rest =>
      if c.isUpper then
        let tail := c.toLower :: snakeCase (some c) false rest
        if beginsWord previous rest.head? && !separated then '_' :: tail else tail
      else if c.isAlphanum then c :: snakeCase (some c) false rest
      else if separated then snakeCase (some c) true rest
      else '_' :: snakeCase (some c) true rest

/-- The name that a type suggests for its variables: its last segment in snake
case, after an underscore where no name could start otherwise. -/
def baseName (type : String) : String :=
  let name := snakeCase none false (Text.lastSegment type.toList)
  let starts := name.head?.any fun c => !c.isDigit
  String.ofList (if starts then name else '_' :: name)

end Firmware
