import MathCanvas.Expr.Codec

/-!
# Messages to and from the calculator

An evaluation is asked for by an *envelope*: an id, the values of the names that are read, and the
expression. It is answered by a *reply*: the id, and a result or the text of an error.
-/

namespace MathCanvas

/-- Why a calculation gave no value. -/
inductive BackendError where
  | failed (reason : String)
  | malformedReply (reason : String)
  deriving DecidableEq, Inhabited

def BackendError.message : BackendError → String
  | .failed reason => "backend error: " ++ reason
  | .malformedReply reason => "malformed backend reply: " ++ reason

/-- The answer to a command. -/
abbrev Outcome := Except BackendError Expr

/-- Values of names, sorted by name. -/
abbrev Inputs := List (String × Expr)

/-- What is sent to evaluate an expression. -/
structure Envelope where
  id : String
  inputs : Inputs
  expression : Expr
  deriving DecidableEq, Inhabited

namespace Envelope

/-- Reads the expressions of an object, the last of each name. -/
def inputsOfJson : List (String × Json) → Option Inputs
  | [] => some []
  | (name, value) :: rest =>
    match Expr.ofJson value, inputsOfJson rest with
    | .ok e, some inputs => some ((name, e) :: inputs)
    | _, _ => none

def ofSource? (source : JsonSource) : Option Envelope := do
  let fields ← source.record? ["id", "inputs", "expression"]
  match fields with
  | [some id, some inputs, some expression] =>
    let id ← id.toString?
    let inputs ← match ← inputs.toJson? (JsonSource.depthLimit - 1) with
      | .obj fields => inputsOfJson fields
      | _ => none
    let expression ← (Expr.ofJson (← expression.toJson? (JsonSource.depthLimit - 1))).toOption
    return ⟨id, Json.sortFields inputs, expression⟩
  | _ => none

/-- The text of an envelope: its fields in order, the inputs sorted by name. -/
def jsonText (envelope : Envelope) : String :=
  Json.objectText [
    ("id", Json.quoted envelope.id),
    ("inputs", Json.objectText (envelope.inputs.map fun (name, e) => (name, e.text))),
    ("expression", envelope.expression.text)]

end Envelope

/-- What comes back: a result, or the text of an error. -/
structure Reply where
  id : String
  answer : Except String Expr
  deriving Inhabited

namespace Reply

/-- The only field of a given name. -/
def uniqueField? (name : String) (fields : List (String × Json)) : Option Json :=
  match fields.filter (·.1 == name) with
  | [(_, value)] => some value
  | _ => none

/-- The answer in the first field that is called `result` or `error`. -/
def answer? (fields : List (String × Json)) : Option (Except String Expr) :=
  match fields.find? fun (name, _) => name == "result" || name == "error" with
  | some (name, value) =>
    if name == "result" then (Expr.ofJson value).toOption.map .ok
    else match value with
      | .str message => some (.error message)
      | _ => none
  | none => none

/-- Reads a reply from a JSON text. -/
def parse? (text : String) : Option Reply :=
  match Json.parse? text with
  | some (.obj fields) =>
    match uniqueField? "id" fields, answer? fields with
    | some (.str id), some answer => some ⟨id, answer⟩
    | _, _ => none
  | _ => none

/-- The outcome that a reply brings; its error text becomes the reason of a failure. -/
def outcome (reply : Reply) : Outcome :=
  match reply.answer with
  | .ok e => .ok e
  | .error message => .error (.failed message)

def jsonText (reply : Reply) : String :=
  Json.objectText [
    ("id", Json.quoted reply.id),
    match reply.answer with
    | .ok e => ("result", e.text)
    | .error message => ("error", Json.quoted message)]

end Reply

end MathCanvas
