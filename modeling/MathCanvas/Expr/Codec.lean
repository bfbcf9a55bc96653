import MathCanvas.Expr.Basic
import MathCanvas.Json.Printer
import MathCanvas.Json.Source

/-!
# Expressions in JSON

* a number is a JSON number, one of the strings `NaN`, `+Infinity` and `-Infinity`, or an object
  with a field `num` that holds a number or a number literal;
* a symbol is a string, or an object with a field `sym`;
* a string literal is a string in single quotes, or an object with a field `str`;
* an application is an array that starts with its head, or an object with such an array as `fn`.

`Expr.ofJson` reads all of these forms and `Expr.toJson` writes the shortest one. The text of an
expression (`Expr.text`) is the text of its JSON form.
-/

namespace MathCanvas

/-- Why a JSON value is no expression. -/
inductive ExprFault where
  | boolean
  | null
  | emptyFunction
  /-- The head of an application is not a string; its text. -/
  | invalidHead (found : String)
  | invalidNumber (text : String)
  /-- An object without a known field; its text. -/
  | unsupportedObject (text : String)
  /-- The text is no JSON text. -/
  | malformed
  deriving DecidableEq, Inhabited

/-- The message of an error; a malformed text has none of its own. -/
def ExprFault.message? : ExprFault → Option String
  | .boolean => some "expression cannot contain booleans"
  | .null => some "expression cannot be null"
  | .emptyFunction => some "function application must have a head"
  | .invalidHead found => some ("function head must be a symbol, found " ++ found)
  | .invalidNumber text => some ("invalid number literal: " ++ text)
  | .unsupportedObject text => some ("unsupported expression object: " ++ text)
  | .malformed => none

namespace Expr

/-! ### Reading -/

/-- The text between single quotes, if a string has at least two of them, one at each end. -/
def unquoted? (text : String) : Option String :=
  match text.toList with
  | '\x27' :: rest =>
    if rest.getLast? = some '\x27' then some (String.ofList rest.dropLast) else none
  | _ => none

/-- The number that a bare string spells. -/
def numberAtom? (text : String) : Option Binary64 :=
  if text == "NaN" then some .nan
  else if text == "+Infinity" then some (.infinity false)
  else if text == "-Infinity" then some (.infinity true)
  else none

/-- The expression that a bare string is. -/
def ofAtom (text : String) : Expr :=
  match numberAtom? text with
  | some x => .number x
  | none =>
    match unquoted? text with
    | some inner => .string inner
    | none => .symbol text

/-- A number literal without its marker of kind, one trailing `n` or else one trailing `d`. -/
def withoutMarker (text : String) : String :=
  match text.toList.reverse with
  | 'n' :: rest => String.ofList rest.reverse
  | 'd' :: rest => String.ofList rest.reverse
  | _ => text

/-- The number that the string in a field `num` spells. -/
def ofNumberText (text : String) : Except ExprFault Expr :=
  let literal := withoutMarker text
  if literal == "NaN" then .ok (.number .nan)
  else if literal == "+Infinity" || literal == "Infinity" then .ok (.number (.infinity false))
  else if literal == "-Infinity" then .ok (.number (.infinity true))
  else match Binary64.ofLiteral? literal with
    | some x => .ok (.number x)
    | none => .error (.invalidNumber text)

/-- The number in a field `num`. -/
def ofNumberField : Json → Except ExprFault Expr
  | .num n => .ok (.number n.toBinary64)
  | .str text => ofNumberText text
  | other => .error (.invalidNumber other.render)

/-- The expression of an object that has a field `num`, or else a string as `sym` or `str`. -/
def ofScalarFields? (fields : List (String × Json)) : Option (Except ExprFault Expr) :=
  match Json.field? "num" fields with
  | some value => some (ofNumberField value)
  | none =>
    match Json.field? "sym" fields with
    | some (.str name) => some (.ok (.symbol name))
    | _ =>
      match Json.field? "str" fields with
      | some (.str text) => some (.ok (.string text))
      | _ => none

mutual

/-- Reads an expression; of several offences the first is reported, a head before its arguments. -/
def ofJson : Json → Except ExprFault Expr
  | .null => .error .null
  | .bool _ => .error .boolean
  | .num n => .ok (.number n.toBinary64)
  | .str text => .ok (ofAtom text)
  | .arr items => ofItems items
  | .obj fields =>
    match ofScalarFields? fields with
    | some result => result
    | none =>
      match ofApplicationField fields with
      | some (some result) => result
      | _ => .error (.unsupportedObject (Json.obj fields).render)

/-- An application written as an array. -/
def ofItems : List Json → Except ExprFault Expr
  | [] => .error .emptyFunction
  | .str head :: rest => (ofArgs rest).map (.app head)
  | other :: _ => .error (.invalidHead other.render)

def ofArgs : List Json → Except ExprFault (List Expr)
  | [] => .ok []
  | item :: rest =>
    match ofJson item with
    | .error e => .error e
    | .ok arg =>
      match ofArgs rest with
      | .error e => .error e
      | .ok args => .ok (arg :: args)

/-- The application in the last field `fn`; `some none` if that field is not an array. -/
def ofApplicationField : List (String × Json) → Option (Option (Except ExprFault Expr))
  | [] => none
  | (name, value) :: rest =>
    match ofApplicationField rest with
    | some later => some later
    | none =>
      if name == "fn" then
        match value with
        | .arr items => some (some (ofItems items))
        | _ => some none
      else none

end

/-- Reads an expression from a JSON text. -/
def ofJsonText (text : String) : Except ExprFault Expr :=
  match Json.parse? text with
  | some json => ofJson json
  | none => .error .malformed

/-! ### Writing -/

/-- Whether a symbol written as a bare string would be read as something else. -/
def isReservedAtom (name : String) : Bool :=
  (numberAtom? name).isSome || (unquoted? name).isSome

/-- A number as JSON: a word if it is not finite, an integer if it is one below `2 ^ 53`. -/
def numberToJson (x : Binary64) : Json :=
  if x.isNaN then .str "NaN"
  else if x.isInfinite then .str (if x.isNegative then "-Infinity" else "+Infinity")
  else match x.toInt? with
    | some n => if n.natAbs < 0x20000000000000 then .num (.int n) else .num (.float x)
    | none => .num (.float x)

mutual

/-- The JSON form of an expression. -/
def toJson : Expr → Json
  | .number x => numberToJson x
  | .symbol name => if isReservedAtom name then .obj [("sym", .str name)] else .str name
  | .string text => .str ("'" ++ text ++ "'")
  | .app head args => .arr (.str head :: argsToJson args)

def argsToJson : List Expr → List Json
  | [] => []
  | arg :: rest => toJson arg :: argsToJson rest

end

/-- The text of an expression. -/
def text (e : Expr) : String := e.toJson.render

end Expr

end MathCanvas
