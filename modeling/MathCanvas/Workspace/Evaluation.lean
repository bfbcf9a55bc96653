import MathCanvas.Workspace.Notice

/-!
# Cells at work

`Workspace.performCell` does what is to happen to a cell. A cell whose inputs or expression changed
is invalidated: its command is cancelled and its outputs lose their values. If it is automatic it
then evaluates: `Workspace.advance` goes from one step of the plan to the next, until a command has
to be waited for, and `Workspace.receive` takes the outcome of that command.
`Workspace.synchronize` keeps the readers and definitions of a cell in step with its expression.
-/

namespace MathCanvas

namespace Workspace

/-- The tasks that follow when the command of a cell is given up. -/
def cancelTasks (active : Option CommandId) : List Task := active.toList.map .cancel

/-- Sends a command of a cell. -/
def dispatch (w : Workspace) (c : CellId) (cell : Cell) (expression : Expr) : Workspace :=
  let id := w.nextCommand
  let command : Command := ⟨c, w.definedInputs cell, expression⟩
  let w : Workspace :=
    { w.putCell c { cell with active := some id, status := .evaluating } with
      nextCommand := id + 1
      commands := w.commands.dispatch id command }
  (w.record (.dispatched id command)).push ((w.backend.onDispatch id command).map .operate)

/-- Goes on with a run, if it is still the run of this generation. -/
def advance (w : Workspace) (c : CellId) (cell : Cell) (generation : Nat) : Workspace :=
  if cell.generation ≠ generation then w
  else match cell.plan with
    | none => w
    | some plan =>
      match plan.next cell.expression with
      | .finished => w.putCell c { cell with plan := none, status := .done }
      | .request expression => w.dispatch c cell expression
      | .assign _ value =>
        let (output, cell) := cell.complete plan value
        (w.putCell c cell).push <|
          output.toList.map (fun o => Task.write o.scope o.slot (.defined value))
            ++ [.cell c (.advance generation)]

/-- Gives a cell the outcome of a command. Only the active command of a cell counts. -/
def receive (w : Workspace) (id : CommandId) (c : CellId) (outcome : Outcome) : Workspace :=
  match w.cell? c with
  | none => w
  | some cell =>
    if cell.active ≠ some id then w
    else
      let cell := { cell with active := none }
      match outcome with
      | .error e =>
        w.putCell c { cell with plan := none, error := some (.backend e), status := .failed }
      | .ok value =>
        match cell.plan with
        | none => w.putCell c cell
        | some plan =>
          let (output, cell) := cell.complete plan value
          (w.putCell c cell).push <|
            output.toList.map (fun o => Task.write o.scope o.slot (.defined value))
              ++ [.cell c (.advance cell.generation), .releaseCell c]

/-- Brings the inputs and outputs of a cell in step with its expression: those that are not needed
go, those that are kept move, and missing ones are added, outputs first. -/
def synchronize (w : Workspace) (c : CellId) (cell : Cell) (s : ScopeId) : Workspace :=
  let reads := cell.expression.readNames
  let writes := cell.expression.writtenNames
  let position := cell.position
  let inputs := cell.inputs.toList.partition fun entry => reads.contains entry.1
  let outputs := cell.outputs.toList.partition fun entry => writes.contains entry.1
  let readPosition := Cell.readPosition position writes
  let kept : Cell :=
    { cell with
      inputs := Std.TreeMap.ofList inputs.1
      outputs := Std.TreeMap.ofList outputs.1 }
  (w.putCell c kept).push <|
    inputs.2.map (fun (_, i) => Task.removeReader i.scope i.reader)
      ++ outputs.2.map (fun (_, o) => Task.removeDefinition o.scope o.slot)
      ++ outputs.1.map (fun (_, o) => Task.moveDefinition o.scope o.slot position)
      ++ inputs.1.map (fun (name, i) => Task.moveReader i.scope i.reader (readPosition name))
      ++ writes.map (fun name => Task.cell c (.addOutput s name position))
      ++ reads.map (fun name => Task.cell c (.addInput s name (readPosition name)))
      ++ [.releaseScope s]

/-- Suspends a cell while its inputs and outputs are brought in step. -/
def batch (w : Workspace) (c : CellId) (cell : Cell) (always : Bool) : Workspace :=
  (w.putCell c { cell with suspended := true }).push
    [.cell c .synchronize, .cell c (.endBatch cell.suspended always)]

/-- Moves a cell to another scope, or takes it out of its scope. -/
def setScope (w : Workspace) (c : CellId) (cell : Cell) (scope : Option ScopeId) : Workspace :=
  if cell.scope = scope then w
  else
    (w.putCell c cell.unregistered).push <|
      cancelTasks cell.active
        ++ cell.inputs.values.map (fun i => Task.removeReader i.scope i.reader)
        ++ cell.outputs.values.map (fun o => Task.removeDefinition o.scope o.slot)
        ++ [.cell c (.enter scope), .releaseCell c]

/-- Does what is to happen to a cell. -/
def performCell (w : Workspace) (c : CellId) (cell : Cell) : CellTask → Workspace
  | .refresh => w.push [.cell c .invalidate, .cell c .reconsider]
  | .invalidate =>
    (w.putCell c cell.invalidated).push <|
      cancelTasks cell.active
        ++ cell.outputs.values.map fun o => Task.write o.scope o.slot .unset
  | .reconsider =>
    if cell.automatic then w.push [.cell c .evaluate]
    else w.putCell c { cell with status := cell.idleStatus }
  | .evaluate =>
    let (generation, cell) := cell.begin fun i => (w.inputValue i).isUnset
    (w.putCell c cell).push (generation.toList.map fun g => .cell c (.advance g))
  | .advance generation => w.advance c cell generation
  | .enter scope => w.batch c { cell with scope } true
  | .synchronize =>
    match cell.scope with
    | none => w
    | some s => w.synchronize c cell s
  | .addOutput s name position =>
    if cell.outputs.contains name then w
    else match w.tree.addDefinition s name position with
      | none => w
      | some (slot, readers, tree) =>
        { w with tree }.push [.notifyReaders s readers, .cell c (.keepOutput s name slot)]
  | .keepOutput s name slot =>
    w.putCell c { cell with outputs := cell.outputs.insert name ⟨s, slot⟩ }
  | .addInput s name position =>
    if cell.inputs.contains name then w
    else match w.tree.addReader s name position with
      | none => w
      | some (reader, _, tree) =>
        let tree := tree.listenToReader s reader (.input c name)
        let last := tree.readerValue s reader
        { w with tree }.putCell c { cell with inputs := cell.inputs.insert name ⟨s, reader, last⟩ }
  | .endBatch outer always =>
    let (dirty, cell) := cell.resumed outer
    (w.putCell c cell).push (if always || dirty then [.cell c .refresh] else [])

/-- Does something to a cell, if it is there. -/
def onCell (w : Workspace) (c : CellId) (f : Cell → Workspace) : Workspace :=
  match w.cell? c with
  | some cell => f cell
  | none => w

end Workspace

end MathCanvas
