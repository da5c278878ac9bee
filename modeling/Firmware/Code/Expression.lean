import Firmware.Text
import Firmware.Value.Basic
/-!
Expressions of generated code, and how they are written.
-/

namespace Firmware

inductive Expression
  | raw (text : String)
  | bool (value : Bool)
  | integer (value : Int64)
  | float (value : Double)
  | text (value : String)
  | variable (name : String) (isPointer : Bool)
  | new (type : String) (args : List Expression)
  | call (function : String) (args : List Expression)
  | method (target : Expression) (name : String) (args : List Expression)
deriving Repr, Inhabited

namespace Expression

/-- A character inside a string literal. -/
def escapeChar : Char → List Char
  | '"' => ['\\', '"']
  | '\\' => ['\\', '\\']
  | '\n' => ['\\', 'n']
  | '\t' => ['\\', 't']
  | c => [c]

/-- A string literal. -/
def quote (content : List Char) : List Char :=
  '"' :: (content.flatMap escapeChar ++ ['"'])

/-- Arguments in brackets, separated by commas. -/
def argumentList (args : List (List Char)) : List Char :=
  '(' :: ([',', ' '].intercalate args ++ [')'])

/-- How a member of an expression is reached: pointers have an arrow. -/
def memberMark : Expression → List Char
  | .variable _ true => ['-', '>']
  | _ => ['.']

mutual

def chars : Expression → List Char
  | .raw content => content.toList
  | .bool value => (toString value).toList
  | .integer value => (toString value.toInt).toList
  | .float value => (Layout.literal.write value).toList ++ ['f']
  | .text content => quote content.toList
  | .variable name _ => name.toList
  | .new type args => "new ".toList ++ type.toList ++ argumentList (argChars args)
  | .call function args => function.toList ++ argumentList (argChars args)
  | .method target name args =>
      target.chars ++ target.memberMark ++ name.toList ++ argumentList (argChars args)
termination_by structural expression => expression

def argChars : List Expression → List (List Char)
  | [] => []
  | arg :: rest => arg.chars :: argChars rest
termination_by structural args => args

end

def render (expression : Expression) : String := String.ofList expression.chars

def ofIdentifier (id : Identifier) : Expression := .variable id.name id.isPointer

/-- The literal of a normalized value; mappings, sequences and missing names have
none. -/
def literal? : Value → Option Expression
  | .bool value => some (.bool value)
  | .integer value => some (.integer value)
  | .float value => some (.float value)
  | .text value => some (.text value)
  | .duration milliseconds => (Text.word? milliseconds.toNat).map .integer
  | .identifier slot => slot.name.map fun name => .variable name true
  | .null | .mapping _ _ | .sequence _ => none

end Expression

end Firmware
