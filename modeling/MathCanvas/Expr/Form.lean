import MathCanvas.Expr.Path
import MathCanvas.Text.Blank

/-!
# Evaluable forms

Three shapes of an application can be evaluated:

* an assignment `["Assign", target, body]`;
* a numeric inline evaluation `["Equal", operand, result]`;
* a symbolic inline evaluation `["Evaluate", operand, directive, result]`.

Every other expression is inert. The operand of a form may be a form again, and so on: the *chain*
of an expression (`Expr.chain`) lists these nested forms, outermost first. The last argument of an
inline evaluation is its *result slot*; it holds the placeholder until a result arrives.
-/

namespace MathCanvas

/-- How an inline evaluation is computed: to a number, or symbolically with a directive. -/
inductive InlineMode where
  | numeric
  | symbolic (directive : Option String)
  deriving DecidableEq, Inhabited

/-- An evaluable application, taken apart. -/
inductive EvaluableForm where
  | assign (target body : Expr)
  | inline (mode : InlineMode) (operand result : Expr)
  deriving DecidableEq, Inhabited

namespace Expr

/-- The name of a directive: a symbol or string that is not blank, trimmed. -/
def directive? (e : Expr) : Option String :=
  if e.isMissing then none
  else
    let named (name : String) : Option String :=
      let trimmed := trimBlanks name
      if trimmed.isEmpty then none else some trimmed
    match e with
    | .symbol name => named name
    | .string text => named text
    | _ => none

/-- The evaluable form that an expression is. -/
def form? : Expr → Option EvaluableForm
  | .app head [first, second] =>
    if head == "Assign" then some (.assign first second)
    else if head == "Equal" then some (.inline .numeric first second)
    else none
  | .app head [operand, directive, result] =>
    if head == "Evaluate" then some (.inline (.symbolic directive.directive?) operand result)
    else none
  | _ => none

/-- Heads that list several names as the target of an assignment. -/
def targetListHeads : List String := ["List", "Sequence", "Delimiter", "Tuple"]

/-- The names that a target of an assignment stands for: a symbol for itself, a list for all
symbols in it, in order, and everything else for none. -/
def targets : Expr → List String
  | .symbol name => if name == missingName then [] else [name]
  | .app head args => if targetListHeads.contains head then args.filterMap symbol? else []
  | _ => []

end Expr

namespace EvaluableForm

/-- The argument that is evaluated: the body of an assignment, the operand of an inline form. -/
def operand : EvaluableForm → Expr
  | .assign _ body => body
  | .inline _ operand _ => operand

/-- The index of the operand among the arguments. -/
def operandIndex : EvaluableForm → Nat
  | .assign .. => 1
  | .inline .. => 0

/-- The index of the result slot among the arguments. -/
def resultIndex? : EvaluableForm → Option Nat
  | .assign .. => none
  | .inline .numeric .. => some 1
  | .inline (.symbolic _) .. => some 2

/-- Whether the result slot holds something else than the placeholder. -/
def hasResult : EvaluableForm → Bool
  | .assign .. => false
  | .inline _ _ result => !result.isMissing

end EvaluableForm

namespace Expr

/-- The nested forms of an expression from the outermost inwards, each with its path below
`path`. -/
def chainFrom (path : Path) : Expr → List (Path × EvaluableForm)
  | .app head [first, second] =>
    if head == "Assign" then
      (path, .assign first second) :: chainFrom (path ++ [1]) second
    else if head == "Equal" then
      (path, .inline .numeric first second) :: chainFrom (path ++ [0]) first
    else []
  | .app head [operand, directive, result] =>
    if head == "Evaluate" then
      (path, .inline (.symbolic directive.directive?) operand result)
        :: chainFrom (path ++ [0]) operand
    else []
  | _ => []

/-- The chain of an expression: its nested evaluable forms with their paths, outermost first. -/
def chain (e : Expr) : List (Path × EvaluableForm) := chainFrom [] e

/-- The paths of the result slots along the chain that hold a result. -/
def resultPaths (e : Expr) : List Path :=
  e.chain.filterMap fun (path, form) =>
    if form.hasResult then form.resultIndex?.map fun i => path ++ [i] else none

/-- Whether a result slot along the chain holds a result. -/
def hasResults (e : Expr) : Bool := !e.resultPaths.isEmpty

/-- The expression with the placeholder in every result slot along its chain. -/
def stripResults (e : Expr) : Expr :=
  e.resultPaths.foldl (fun e path => e.replaceAt path missing) e

/-- The request that evaluates an operand in the given mode. -/
def inlineRequest (mode : InlineMode) (operand : Expr) : Expr :=
  match mode with
  | .numeric => .app "Equal" [operand, missing]
  | .symbolic directive =>
    .app "Evaluate" [operand, (directive.map Expr.string).getD missing, missing]

end Expr

end MathCanvas
