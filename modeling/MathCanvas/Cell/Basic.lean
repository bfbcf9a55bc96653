import MathCanvas.Cell.Plan
import MathCanvas.Expr.Names
import MathCanvas.Scope.Tree

/-!
# Cells

A cell owns an expression at a position. In a scope it has an *input* for every name that the
expression reads and an *output*, a definition, for every name that it writes. At most one command
of it is out at a time, its *active* one.

A run of a cell follows its plan. Whatever makes the run out of date raises the `generation`, so
that what is left of the run stops when its turn comes.
-/

namespace MathCanvas

/-- The number of a command. -/
abbrev CommandId := Nat

inductive CellStatus where
  /-- There is nothing to evaluate: no scope, or no evaluable form. -/
  | inert
  /-- Some input has no value yet. -/
  | waiting
  /-- Something changed while the cell does not evaluate by itself. -/
  | stale
  /-- A command is out. -/
  | evaluating
  | done
  | failed
  deriving DecidableEq, Inhabited

/-- A reader that belongs to a cell, with the value that the cell saw last. -/
structure CellInput where
  scope : ScopeId
  reader : ReaderId
  last : SlotValue
  deriving DecidableEq, Inhabited

/-- A definition that belongs to a cell. -/
structure CellOutput where
  scope : ScopeId
  slot : SlotId
  deriving DecidableEq, Inhabited

structure Cell where
  expression : Expr
  position : Position
  scope : Option ScopeId := none
  inputs : Std.TreeMap String CellInput := {}
  outputs : Std.TreeMap String CellOutput := {}
  plan : Option Plan := none
  active : Option CommandId := none
  generation : Nat := 0
  status : CellStatus := .inert
  error : Option CellError := none
  /-- Whether the cell evaluates by itself. -/
  automatic : Bool := true
  /-- Whether new inputs are only noted at the moment. -/
  suspended : Bool := false
  /-- Whether an input changed while the cell was suspended. -/
  dirty : Bool := false
  deriving Inhabited

namespace Cell

/-- The cell at the start of a new run: no plan, no error, no results, no command. -/
def invalidated (c : Cell) : Cell :=
  { c with
    generation := c.generation + 1
    plan := none
    error := none
    expression := c.expression.stripResults
    active := none }

/-- The cell without inputs, outputs, plan and command. -/
def unregistered (c : Cell) : Cell :=
  { c with
    generation := c.generation + 1
    plan := none
    active := none
    inputs := {}
    outputs := {} }

/-- The status of a cell that is out of date and does not evaluate by itself. -/
def idleStatus (c : Cell) : CellStatus :=
  if c.scope.isSome && !c.expression.chain.isEmpty then .stale else .inert

/-- Where the cell reads a name: before itself if it writes the name, so as not to see its own
definition. -/
def readPosition (position : Position) (writes : List String) (name : String) : Position :=
  if writes.contains name then position.justBefore else position

/-- The cell with a run begun, and the generation of the run if there is one. `unset` tells
whether an input has no value. -/
def begin (c : Cell) (unset : CellInput → Bool) : Option Nat × Cell :=
  let c : Cell := { c with generation := c.generation + 1, plan := none }
  match c.scope with
  | none => (none, { c with status := .inert })
  | some _ =>
    match Plan.ofExpr c.expression with
    | .error e => (none, { c with error := some e, status := .failed })
    | .ok none => (none, { c with status := .inert })
    | .ok (some plan) =>
      if c.inputs.values.any unset then (none, { c with status := .waiting })
      else (some c.generation, { c with plan := some plan })

/-- The cell with the value of its next stage recorded, and the output that the value goes to. -/
def complete (c : Cell) (plan : Plan) (value : Expr) : Option CellOutput × Cell :=
  let (target, expression, plan) := plan.complete c.expression value
  (target.bind (c.outputs[·]?), { c with expression, plan := some plan })

/-- The cell after the end of a batch during which it was suspended, and whether it has to refresh.
Only the outermost batch takes note of inputs that changed. -/
def resumed (c : Cell) (outer : Bool) : Bool × Cell :=
  if outer then (false, { c with suspended := true })
  else (c.dirty, { c with suspended := false, dirty := false })

end Cell

end MathCanvas
