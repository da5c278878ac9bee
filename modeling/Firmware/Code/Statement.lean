import Firmware.Code.Expression
/-!
Statements and declarations of generated code, and how they are written.
-/

namespace Firmware

/-- A statement of the setup function. -/
inductive Statement
  | expression (value : Expression)
  | assignment (target : String) (value : Expression)
  | comment (text : String)
deriving Repr, Inhabited

namespace Statement

def chars : Statement → List Char
  | .expression value => value.chars ++ [';']
  | .assignment target value => target.toList ++ " = ".toList ++ value.chars ++ [';']
  | .comment content => "// ".toList ++ content.toList

def render (statement : Statement) : String := String.ofList statement.chars

end Statement

/-- The declaration of a global variable. -/
structure Global where
  type : String
  name : String
  isPointer : Bool
deriving DecidableEq, Repr

namespace Global

def ofIdentifier (id : Identifier) : Global := ⟨id.type, id.name, id.isPointer⟩

def render (global : Global) : String :=
  global.type ++ (if global.isPointer then " *" else " ") ++ global.name ++ ";"

end Global

end Firmware
