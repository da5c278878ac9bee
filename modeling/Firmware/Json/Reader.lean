import Firmware.Json.Number
/-!
Reading JSON text, strictly.  A first machine turns characters into tokens, a
second one turns tokens into a value; both read their input once, from left to
right, and refuse it at the first item that does not fit.
-/

namespace Firmware

namespace Json

/-- Arrays and objects may be nested this deep. -/
def depthLimit : Nat := 127

/-- The tokens of JSON text.  A scalar is complete in itself. -/
inductive Token
  | scalar (value : Json)
  | comma
  | colon
  | openArray
  | closeArray
  | openObject
  | closeObject

/-- The scalar that a run of letters, digits, signs and points stands for. -/
def word? (word : List Char) : Option Token :=
  if word == "null".toList then some (.scalar .null)
  else if word == "true".toList then some (.scalar (.bool true))
  else if word == "false".toList then some (.scalar (.bool false))
  else (numeral? word).bind fun numeral => numeral.value?.map .scalar

def hexDigit? (c : Char) : Option Nat :=
  if c.isDigit then some (c.toNat - '0'.toNat)
  else if 'a' ≤ c ∧ c ≤ 'f' then some (c.toNat - 'a'.toNat + 10)
  else if 'A' ≤ c ∧ c ≤ 'F' then some (c.toNat - 'A'.toNat + 10)
  else none

/-- Where the character machine stands.  Characters of the open string are held
in reverse; `high` is the first half of a surrogate pair that waits for its
second half. -/
inductive Place
  | between
  | word (chars : List Char)
  | string (chars : List Char)
  | escape (chars : List Char)
  | unicode (chars : List Char) (high : Option Nat) (read value : Nat)
  | pairEscape (chars : List Char) (high : Nat)
  | pairUnicode (chars : List Char) (high : Nat)

/-- The machine that turns characters into tokens, held in reverse. -/
structure Lexer where
  place : Place
  tokens : List Token

/-- Blanks between tokens. -/
def isSpace (c : Char) : Bool := c == ' ' || c == '\t' || c == '\n' || c == '\r'

/-- The characters of numbers and of the three literal names. -/
def isWordChar (c : Char) : Bool := c.isAlphanum || c == '+' || c == '-' || c == '.'

/-- A character between tokens. -/
def Lexer.start? (tokens : List Token) (c : Char) : Option Lexer :=
  if isSpace c then some ⟨.between, tokens⟩
  else if isWordChar c then some ⟨.word [c], tokens⟩
  else
    match c with
    | '"' => some ⟨.string [], tokens⟩
    | ',' => some ⟨.between, .comma :: tokens⟩
    | ':' => some ⟨.between, .colon :: tokens⟩
    | '[' => some ⟨.between, .openArray :: tokens⟩
    | ']' => some ⟨.between, .closeArray :: tokens⟩
    | '\x7b' => some ⟨.between, .openObject :: tokens⟩
    | '\x7d' => some ⟨.between, .closeObject :: tokens⟩
    | _ => none

/-- The character that an escape of one letter stands for. -/
def escaped? : Char → Option Char
  | '"' => some '"'
  | '\\' => some '\\'
  | '/' => some '/'
  | 'b' => some '\x08'
  | 'f' => some '\x0c'
  | 'n' => some '\n'
  | 'r' => some '\r'
  | 't' => some '\t'
  | _ => none

/-- The end of a four-digit escape.  Surrogates count only in pairs. -/
def Lexer.unit? (tokens : List Token) (chars : List Char) (high : Option Nat)
    (value : Nat) : Option Lexer :=
  match high with
  | none =>
      if 0xD800 ≤ value ∧ value < 0xDC00 then some ⟨.pairEscape chars value, tokens⟩
      else if 0xDC00 ≤ value ∧ value < 0xE000 then none
      else some ⟨.string (Char.ofNat value :: chars), tokens⟩
  | some first =>
      if 0xDC00 ≤ value ∧ value < 0xE000 then
        let point := 0x10000 + (first - 0xD800) * 0x400 + (value - 0xDC00)
        some ⟨.string (Char.ofNat point :: chars), tokens⟩
      else none

def Lexer.step? (lexer : Lexer) (c : Char) : Option Lexer :=
  let tokens := lexer.tokens
  match lexer.place with
  | .between => Lexer.start? tokens c
  | .word chars =>
      if isWordChar c then some ⟨.word (c :: chars), tokens⟩
      else (word? chars.reverse).bind fun token => Lexer.start? (token :: tokens) c
  | .string chars =>
      if c == '"' then
        some ⟨.between, .scalar (.text (String.ofList chars.reverse)) :: tokens⟩
      else if c == '\\' then some ⟨.escape chars, tokens⟩
      else if c.val < 0x20 then none
      else some ⟨.string (c :: chars), tokens⟩
  | .escape chars =>
      if c == 'u' then some ⟨.unicode chars none 0 0, tokens⟩
      else (escaped? c).map fun meant => ⟨.string (meant :: chars), tokens⟩
  | .unicode chars high read value =>
      (hexDigit? c).bind fun digit =>
        let value := 16 * value + digit
        if read < 3 then some ⟨.unicode chars high (read + 1) value, tokens⟩
        else Lexer.unit? tokens chars high value
  | .pairEscape chars high =>
      if c == '\\' then some ⟨.pairUnicode chars high, tokens⟩ else none
  | .pairUnicode chars high =>
      if c == 'u' then some ⟨.unicode chars (some high) 0 0, tokens⟩ else none

def tokens? (text : List Char) : Option (List Token) := do
  let lexer ← text.foldlM Lexer.step? ⟨.between, []⟩
  match lexer.place with
  | .between => some lexer.tokens.reverse
  | .word chars => (word? chars.reverse).map fun token => (token :: lexer.tokens).reverse
  | _ => none

/-- An array or object that is still open. -/
inductive Frame
  | array (reversed : List Json)
  | object (entries : Table String Json) (key : String)

/-- What the token machine waits for. -/
inductive Wanted
  | value
  | valueOrClose
  | separator
  | key (entries : Table String Json)
  | keyOrClose
  | colon (entries : Table String Json) (key : String)
  | nothing (value : Json)

/-- The machine that turns tokens into a value. -/
structure Parser where
  wanted : Wanted
  stack : List Frame

/-- Hands a complete value to the innermost open array or object.  A repeated key
keeps its first place and takes the last value. -/
def Parser.deliver (stack : List Frame) (value : Json) : Parser :=
  match stack with
  | [] => ⟨.nothing value, []⟩
  | .array reversed :: rest => ⟨.separator, .array (value :: reversed) :: rest⟩
  | .object entries key :: rest =>
      ⟨.separator, .object (Table.insert entries key value) key :: rest⟩

/-- The first token of a value. -/
def Parser.begin? (stack : List Frame) : Token → Option Parser
  | .scalar value => some (Parser.deliver stack value)
  | .openArray =>
      if stack.length < depthLimit then some ⟨.valueOrClose, .array [] :: stack⟩ else none
  | .openObject =>
      if stack.length < depthLimit then some ⟨.keyOrClose, .object [] "" :: stack⟩
      else none
  | _ => none

/-- Takes in a token. -/
def Parser.step? (machine : Parser) (token : Token) : Option Parser :=
  match machine.wanted, machine.stack, token with
  | .value, stack, token => Parser.begin? stack token
  | .valueOrClose, .array [] :: rest, .closeArray => some (Parser.deliver rest (.array []))
  | .valueOrClose, stack, token => Parser.begin? stack token
  | .separator, .array reversed :: rest, .comma => some ⟨.value, .array reversed :: rest⟩
  | .separator, .array reversed :: rest, .closeArray =>
      some (Parser.deliver rest (.array reversed.reverse))
  | .separator, .object entries _ :: rest, .comma => some ⟨.key entries, rest⟩
  | .separator, .object entries _ :: rest, .closeObject =>
      some (Parser.deliver rest (.object entries))
  | .key entries, rest, .scalar (.text key) => some ⟨.colon entries key, rest⟩
  | .keyOrClose, .object entries _ :: rest, .scalar (.text key) =>
      some ⟨.colon entries key, rest⟩
  | .keyOrClose, .object entries _ :: rest, .closeObject =>
      some (Parser.deliver rest (.object entries))
  | .colon entries key, rest, .colon => some ⟨.value, .object entries key :: rest⟩
  | _, _, _ => none

/-- Reads a text that holds exactly one JSON value. -/
def read? (text : String) : Option Json := do
  let tokens ← tokens? text.toList
  let machine ← tokens.foldlM Parser.step? ⟨.value, []⟩
  match machine.wanted with
  | .nothing value => some value
  | _ => none

end Json

end Firmware
