import MathCanvas.Command.Message

/-!
# A small calculator

Evaluates sums, products and quotients of numbers, and solves equations that are solved already.
Everything else is an error.
-/

namespace MathCanvas

namespace Calculator

/-- The value of a name: its input, or the name itself. -/
def lookup (inputs : Inputs) (name : String) : Expr :=
  (Json.field? name inputs).getD (.symbol name)

/-- The quotient of two values. A zero divisor is an error whatever is divided. -/
def divide (a b : Expr) : Outcome :=
  match a, b with
  | .number x, .number y =>
    if y.isZero then .error (.failed "division by zero") else .ok (.number (x / y))
  | _, .number y =>
    if y.isZero then .error (.failed "division by zero") else .error (.failed "not a number")
  | _, _ => .error (.failed "not a number")

mutual

/-- The value of an expression. -/
def evaluate (inputs : Inputs) : Expr → Outcome
  | .number x => .ok (.number x)
  | .string text => .ok (.string text)
  | .symbol name => .ok (lookup inputs name)
  | .app head args =>
    if head == "Add" then foldArgs inputs (· + ·) (.zero false) args
    else if head == "Multiply" then foldArgs inputs (· * ·) (.ofInt 1) args
    else match args with
      | [first, second] =>
        if head == "Equal" then evaluate inputs first
        else if head == "Divide" then
          match evaluate inputs first with
          | .error e => .error e
          | .ok a =>
            match evaluate inputs second with
            | .error e => .error e
            | .ok b => divide a b
        else .error (.failed ("unsupported: " ++ (Expr.app head args).text))
      | [operand, _, _] =>
        if head == "Evaluate" then
          match operand with
          | .app "EqualEqual" [.symbol _, value] => evaluate inputs value
          | .app "EqualEqual" _ => .error (.failed "cannot solve")
          | operand => evaluate inputs operand
        else .error (.failed ("unsupported: " ++ (Expr.app head args).text))
      | _ => .error (.failed ("unsupported: " ++ (Expr.app head args).text))

/-- Folds the values of arguments, which have to be numbers, from the left. -/
def foldArgs (inputs : Inputs) (op : Binary64 → Binary64 → Binary64) (start : Binary64) :
    List Expr → Outcome
  | [] => .ok (.number start)
  | arg :: rest =>
    match evaluate inputs arg with
    | .error e => .error e
    | .ok (.number x) => foldArgs inputs op (op start x) rest
    | .ok other => .error (.failed ("not a number: " ++ other.text))

end

end Calculator

end MathCanvas
