import MathCanvas.Number.Arithmetic

/-!
# JSON values

A JSON value keeps the fields of an object as they were written: in order, and with repeated
names. Looking a name up (`Json.field?`) takes its last occurrence.
-/

namespace MathCanvas

/-- A number of a JSON text: an integer of 64 bits, with or without sign, or a binary64 number. -/
inductive JsonNumber where
  | int (n : Int)
  | float (x : Binary64)
  deriving DecidableEq, Inhabited

namespace JsonNumber

/-- The number as a binary64 number; integers go to the nearest one. -/
def toBinary64 : JsonNumber → Binary64
  | .int n => Binary64.ofInt n
  | .float x => x

end JsonNumber

inductive Json where
  | null
  | bool (value : Bool)
  | num (value : JsonNumber)
  | str (text : String)
  | arr (items : List Json)
  | obj (fields : List (String × Json))
  deriving Inhabited

namespace Json

/-- The value of the last field of a given name. -/
def field? {α : Type} (name : String) : List (String × α) → Option α
  | [] => none
  | (key, value) :: rest =>
    match field? name rest with
    | some later => some later
    | none => if key == name then some value else none

/-- Puts a field into a list of fields sorted by name, in place of one of the same name. -/
def insertField {α : Type} (name : String) (value : α) : List (String × α) → List (String × α)
  | [] => [(name, value)]
  | (key, old) :: rest =>
    if name < key then (name, value) :: (key, old) :: rest
    else if key == name then (name, value) :: rest
    else (key, old) :: insertField name value rest

/-- The fields sorted by name; of several fields of one name the last is kept. -/
def sortFields {α : Type} (fields : List (String × α)) : List (String × α) :=
  fields.foldl (fun sorted field => insertField field.1 field.2 sorted) []

end Json

end MathCanvas
