import MathCanvas.Expr.Basic

/-!
# Places in an expression

A path is a list of argument indices. `Expr.at?` finds the node at a path and `Expr.replaceAt?`
puts another in its place; both succeed exactly on the paths that exist.
-/

namespace MathCanvas

/-- Argument indices from the root of an expression to a node. -/
abbrev Path := List Nat

namespace Expr

/-- The node at a path. -/
def at? : Expr → Path → Option Expr
  | e, [] => some e
  | e, i :: path =>
    match e.args[i]? with
    | some arg => arg.at? path
    | none => none

/-- The expression with another node at a path. -/
def replaceAt? : Expr → Path → Expr → Option Expr
  | _, [], new => some new
  | .app head args, i :: path, new =>
    match args[i]? with
    | some arg => (arg.replaceAt? path new).map fun arg => .app head (args.set i arg)
    | none => none
  | _, _ :: _, _ => none

/-- The expression with another node at a path; unchanged if there is no such path. -/
def replaceAt (e : Expr) (path : Path) (new : Expr) : Expr := (e.replaceAt? path new).getD e

end Expr

end MathCanvas
