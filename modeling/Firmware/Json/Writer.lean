import Firmware.Json.Basic
import Firmware.Double.Layout
/-!
Writing JSON text, either compactly or indented for reading.
-/

namespace Firmware

namespace Json

/-- A hexadecimal escape of a control character. -/
def controlEscape (c : Char) : String :=
  let digits := Nat.toDigits 16 c.toNat
  "\\u" ++ String.ofList (List.replicate (4 - digits.length) '0' ++ digits)

/-- The text of a character inside a string. -/
def escapeChar (c : Char) : String :=
  match c with
  | '"' => "\\\""
  | '\\' => "\\\\"
  | '\x08' => "\\b"
  | '\x0c' => "\\f"
  | '\n' => "\\n"
  | '\r' => "\\r"
  | '\t' => "\\t"
  | c => if c.val < 0x20 then controlEscape c else c.toString

def quote (text : String) : String :=
  "\"" ++ text.toList.foldl (fun written c => written ++ escapeChar c) "" ++ "\""

mutual

/-- The text without any blanks. -/
def compact : Json → String
  | .null => "null"
  | .bool value => if value then "true" else "false"
  | .integer value => toString value
  | .float value => Layout.json.write value
  | .text value => quote value
  | .array items => "[" ++ ",".intercalate (compactItems items) ++ "]"
  | .object entries => "\x7b" ++ ",".intercalate (compactEntries entries) ++ "\x7d"
termination_by structural json => json

def compactItems : List Json → List String
  | [] => []
  | item :: rest => item.compact :: compactItems rest
termination_by structural items => items

def compactEntries : List (String × Json) → List String
  | [] => []
  | (key, value) :: rest => (quote key ++ ":" ++ value.compact) :: compactEntries rest
termination_by structural entries => entries

end

/-- Puts each part on an indented line of its own between two brackets. -/
def bracketed (opening closing indent : String) (parts : List String) : String :=
  if parts.isEmpty then opening ++ closing
  else
    opening ++ "\n" ++ ",\n".intercalate (parts.map (indent ++ "  " ++ ·)) ++ "\n"
      ++ indent ++ closing

mutual

/-- The text with one item per line, indented by two blanks for each level below
the given indentation. -/
def pretty (indent : String) : Json → String
  | .array items => bracketed "[" "]" indent (prettyItems (indent ++ "  ") items)
  | .object entries =>
      bracketed "\x7b" "\x7d" indent (prettyEntries (indent ++ "  ") entries)
  | .null => "null"
  | .bool value => if value then "true" else "false"
  | .integer value => toString value
  | .float value => Layout.json.write value
  | .text value => quote value
termination_by structural json => json

def prettyItems (indent : String) : List Json → List String
  | [] => []
  | item :: rest => item.pretty indent :: prettyItems indent rest
termination_by structural items => items

def prettyEntries (indent : String) : List (String × Json) → List String
  | [] => []
  | (key, value) :: rest =>
      (quote key ++ ": " ++ value.pretty indent) :: prettyEntries indent rest
termination_by structural entries => entries

end

end Json

end Firmware
