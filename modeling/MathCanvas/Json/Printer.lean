import MathCanvas.Json.Basic
import MathCanvas.Number.Numeral

/-!
# JSON texts

The compact text of a JSON value: no blanks, fields sorted by name. `Json.objectText` writes the
fields of a record in the order given.
-/

namespace MathCanvas

namespace Json

/-- A lower-case hexadecimal digit. -/
def hexDigit (n : Nat) : Char := Nat.digitChar n

/-- A character inside a string: quote, backslash and control characters are escaped, all else
stands for itself. -/
def escaped (c : Char) : List Char :=
  if c == '"' then ['\\', '"']
  else if c == '\\' then ['\\', '\\']
  else if c == '\x08' then ['\\', 'b']
  else if c == '\x0c' then ['\\', 'f']
  else if c == '\n' then ['\\', 'n']
  else if c == '\r' then ['\\', 'r']
  else if c == '\t' then ['\\', 't']
  else if c.toNat < 0x20 then
    ['\\', 'u', '0', '0', hexDigit (c.toNat / 16), hexDigit (c.toNat % 16)]
  else [c]

/-- A string in quotes. -/
def quoted (text : String) : String :=
  String.ofList ('"' :: text.toList.flatMap escaped ++ ['"'])

def arrayText (items : List String) : String := "[" ++ ",".intercalate items ++ "]"

/-- An object with the given fields, whose values are texts already. -/
def objectText (fields : List (String × String)) : String :=
  "\x7b" ++ ",".intercalate (fields.map fun field => quoted field.1 ++ ":" ++ field.2) ++ "\x7d"

end Json

def JsonNumber.render : JsonNumber → String
  | .int n => toString n
  | .float x => x.render .json

namespace Json

mutual

/-- The text of a value. -/
def render : Json → String
  | .null => "null"
  | .bool true => "true"
  | .bool false => "false"
  | .num value => value.render
  | .str text => quoted text
  | .arr items => arrayText (renderItems items)
  | .obj fields => objectText (sortFields (renderFields fields))

def renderItems : List Json → List String
  | [] => []
  | item :: rest => render item :: renderItems rest

def renderFields : List (String × Json) → List (String × String)
  | [] => []
  | (name, value) :: rest => (name, render value) :: renderFields rest

end

end Json

end MathCanvas
