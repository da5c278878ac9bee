import Firmware.Text
/-!
Which names may be chosen for the variables of generated code.
-/

namespace Firmware

/-- Names that the generated file or the target language uses itself. -/
def reservedNames : List String :=
  ["App", "setup", "loop", "main", "auto", "bool", "break", "case", "char", "class",
    "const", "continue", "default", "delete", "do", "double", "else", "enum", "extern",
    "false", "float", "for", "goto", "if", "inline", "int", "long", "namespace", "new",
    "nullptr", "operator", "private", "protected", "public", "return", "short", "signed",
    "sizeof", "static", "struct", "switch", "template", "this", "true", "typedef",
    "union", "unsigned", "using", "virtual", "void", "volatile", "while"]

/-- Why a name cannot be chosen. -/
inductive NameFault
  | empty
  | badStart
  | badChar (c : Char)
  | reserved
deriving DecidableEq, Repr

def isNameStart (c : Char) : Bool := c.isAlpha || c == '_'

def isNamePart (c : Char) : Bool := c.isAlphanum || c == '_'

/-- The first fault of a name: an identifier starts with a letter or an
underscore, goes on with letters, digits and underscores, and is not reserved. -/
def nameFault? (name : String) : Option NameFault :=
  match name.toList with
  | [] => some .empty
  | first :: rest =>
      if !isNameStart first then some .badStart
      else
        match rest.find? (fun c => !isNamePart c) with
        | some c => some (.badChar c)
        | none => if reservedNames.contains name then some .reserved else none

def NameFault.message (name : String) : NameFault → String
  | .empty => "an id must not be empty"
  | .badStart => "`" ++ name ++ "` must start with a letter or an underscore"
  | .badChar c => "`" ++ name ++ "` contains the invalid character `" ++ c.toString ++ "`"
  | .reserved => "`" ++ name ++ "` is a reserved name"

end Firmware
