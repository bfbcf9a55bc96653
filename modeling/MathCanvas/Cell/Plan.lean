import MathCanvas.Expr.Form
import MathCanvas.Command.Message

/-!
# Evaluation plans

The chain of an expression is evaluated from the inside out, one *stage* for each of its forms.
The value of a stage is carried to the next one: it is the operand of an inline evaluation, and
the value that an assignment stores. Only the innermost stage takes its operand from the
expression itself.
-/

namespace MathCanvas

/-- Why a cell has no value. -/
inductive CellError where
  | multipleTargets (names : List String)
  | invalidTarget (target : Expr)
  | backend (error : BackendError)
  deriving DecidableEq, Inhabited

def CellError.message : CellError → String
  | .multipleTargets names =>
    "cannot assign to more than one name at once: " ++ ", ".intercalate names
  | .invalidTarget target => "invalid assignment target " ++ target.text
  | .backend error => error.message

inductive StageKind where
  /-- The value goes into the result slot at a path. -/
  | inline (mode : InlineMode) (resultPath : Path)
  /-- The value is stored under a name. -/
  | assign (target : String)
  deriving DecidableEq, Inhabited

structure Stage where
  operandPath : Path
  kind : StageKind
  deriving DecidableEq, Inhabited

/-- The stages that are still to do, the next one first, and the value of the one before. -/
structure Plan where
  stages : List Stage
  carried : Option Expr
  deriving DecidableEq, Inhabited

/-- What a plan does next. -/
inductive PlanAction where
  | request (expression : Expr)
  /-- Stores a value under a name; nothing has to be computed for it. -/
  | assign (target : String) (value : Expr)
  | finished
  deriving DecidableEq, Inhabited

namespace Plan

/-- The only name that a target stands for. -/
def singleTarget (target : Expr) : Except CellError String :=
  match target.targets with
  | [name] => .ok name
  | [] => .error (.invalidTarget target)
  | names => .error (.multipleTargets names)

/-- The stage of a form on the chain. -/
def stageOf (path : Path) (form : EvaluableForm) : Except CellError Stage :=
  let operandPath := path ++ [form.operandIndex]
  match form with
  | .assign target _ => (singleTarget target).map fun name => ⟨operandPath, .assign name⟩
  | .inline mode _ _ => .ok ⟨operandPath, .inline mode (path ++ form.resultIndex?.toList)⟩

/-- The stages of a chain that is given from the inside out. -/
def stagesOf : List (Path × EvaluableForm) → Except CellError (List Stage)
  | [] => .ok []
  | (path, form) :: rest =>
    match stageOf path form with
    | .error e => .error e
    | .ok stage => (stagesOf rest).map (stage :: ·)

/-- The plan of an expression; none if it is inert. Of several bad targets the innermost is
reported. -/
def ofExpr (e : Expr) : Except CellError (Option Plan) :=
  if e.chain.isEmpty then .ok none
  else (stagesOf e.chain.reverse).map fun stages => some ⟨stages, none⟩

/-- What comes next, given the expression. -/
def next (plan : Plan) (e : Expr) : PlanAction :=
  match plan.stages with
  | [] => .finished
  | stage :: _ =>
    let operand := (e.at? stage.operandPath).getD .missing
    match stage.kind, plan.carried with
    | .assign target, some value => .assign target value
    | .assign _, none => .request operand
    | .inline mode _, carried => .request (Expr.inlineRequest mode (carried.getD operand))

/-- Records the value of the next stage. Returns the name it is assigned to, if the stage is an
assignment, and the expression with the value in its result slot, if the stage has one. -/
def complete (plan : Plan) (e : Expr) (value : Expr) : Option String × Expr × Plan :=
  match plan.stages with
  | [] => (none, e, plan)
  | stage :: rest =>
    match stage.kind with
    | .inline _ resultPath => (none, e.replaceAt resultPath value, ⟨rest, some value⟩)
    | .assign target => (some target, e, ⟨rest, some value⟩)

end Plan

end MathCanvas
