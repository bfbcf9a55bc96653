import MathCanvas.Cell.Basic
import MathCanvas.Command.Calculator
import MathCanvas.Command.Queue

/-!
# Workspaces

A workspace is a tree of scopes with cells in it, a backend that evaluates commands, and a client
who makes changes (`Op`) and may subscribe to values. Telling somebody about a new value can set
off further changes: a cell evaluates again, a client's subscription makes changes of its own, a
backend answers at once. All this happens depth first, before the change that set it off is
finished.

What is still to happen stands on the *agenda*, the first task in front. A change puts all that it
sets off before the tasks that are there already, so that the agenda is the stack of changes in
progress. `Workspace.perform` says what a task does.
-/

namespace MathCanvas

/-- A client's handle to a definition or a reader: its number in order of creation. -/
inductive HandleRef where
  | definition (n : Nat)
  | reader (n : Nat)
  deriving DecidableEq, Inhabited

/-- How a command is answered. -/
inductive Answer where
  | outcome (outcome : Outcome)
  /-- With the result of the calculator. -/
  | computed
  /-- With an expression that cannot be read: the command is withdrawn, and nobody hears of it. -/
  | unreadable (error : ExprFault)
  deriving Inhabited

/-- What a client does. Scopes, cells, handles, subscriptions and commands are given by their
numbers; an operation on something that is not there does nothing. -/
inductive Op where
  | child (of : ScopeId) (name : String) (start : Position) (closed : Bool)
  /-- The client lets go of a scope. -/
  | dropScope (scope : ScopeId)
  | addDefinition (scope : ScopeId) (name : String) (position : Position)
  | addReader (scope : ScopeId) (name : String) (position : Position)
  | set (definition : Nat) (value : Expr)
  | clear (definition : Nat)
  | move (handle : HandleRef) (position : Position)
  | remove (handle : HandleRef)
  /-- Subscribes to a handle. The reaction gives what the client does at its n-th call. -/
  | subscribe (handle : HandleRef) (reaction : Nat → SlotValue → List Op)
  | unsubscribe (subscription : SubscriptionId)
  /-- Lets go of a subscription without ending it. -/
  | detach (subscription : SubscriptionId)
  | newCell (position : Position) (expression : Expr) (scope : Option ScopeId) (automatic : Bool)
  | setScope (cell : CellId) (scope : Option ScopeId)
  | setExpression (cell : CellId) (expression : Expr)
  | setPosition (cell : CellId) (position : Position)
  | setAutomatic (cell : CellId) (automatic : Bool)
  | recalculate (cell : CellId)
  /-- Recalculates a cell only if it is stale. -/
  | recalculateStale (cell : CellId)
  /-- The client lets go of a cell. -/
  | dropCell (cell : CellId)
  | ask (cell : CellId) (name : String)
  /-- Answers a command, or the newest one that waits. -/
  | answer (command : Option CommandId) (answer : Answer)
  /-- Takes the next command out of the outbox. -/
  | next
  /-- Receives a reply in its text form. The client knows how many commands were dispatched when it
  writes the text. -/
  | reply (text : Nat → String)
  /-- An operation whose expression cannot be read. -/
  | unreadable (error : ExprFault)
  deriving Inhabited

/-- A request of a cell to evaluate an expression. -/
structure Command where
  cell : CellId
  inputs : Inputs
  expression : Expr
  deriving DecidableEq, Inhabited

/-- What an operation gives back. -/
inductive OpResult where
  | none
  | unreadable (error : ExprFault)
  | answered (command : CommandId)
  | nothingHeld
  | envelope (next : Option (CommandId × Command))
  | flag (value : Bool)
  | malformedReply
  | asked (input output : Option SlotValue)
  deriving DecidableEq, Inhabited

/-- The way from a command to its answer. -/
inductive Channel where
  /-- A command is answered by `Op.answer`, which gives its number. -/
  | direct
  /-- A command is fetched by `Op.next` and answered by `Op.reply`, whose text gives its name. -/
  | queue (name : CommandId → String)

/-- How commands are treated. -/
structure Backend where
  channel : Channel
  /-- What happens before `dispatch` is finished. -/
  onDispatch : CommandId → Command → List Op
  onCancel : CommandId → List Op
  /-- Whether a cancelled command can be answered all the same. -/
  keepsCancelled : Bool

namespace Backend

/-- Commands wait until somebody answers them. -/
def recording : Backend := ⟨.direct, fun _ _ => [], fun _ => [], true⟩

/-- Commands are answered at once by the calculator. -/
def immediate : Backend :=
  ⟨.direct, fun id _ => [.answer (some id) .computed], fun _ => [], false⟩

/-- Commands wait in a queue under the given names, and cancelling takes them away from it. -/
def queueing (name : CommandId → String) : Backend :=
  ⟨.queue name, fun _ _ => [], fun _ => [], false⟩

end Backend

/-- What is to happen to a cell. -/
inductive CellTask where
  | refresh
  | invalidate
  /-- The second half of a refresh: evaluate, or become stale. -/
  | reconsider
  | evaluate
  /-- Goes on with the run of a generation. -/
  | advance (generation : Nat)
  /-- Enters a scope, or stays without one. -/
  | enter (scope : Option ScopeId)
  /-- Brings inputs and outputs in step with the expression. -/
  | synchronize
  | addOutput (scope : ScopeId) (name : String) (position : Position)
  /-- Takes a new definition as output. -/
  | keepOutput (scope : ScopeId) (name : String) (slot : SlotId)
  | addInput (scope : ScopeId) (name : String) (position : Position)
  /-- Ends a batch; the cell refreshes if an input changed meanwhile, or in any case. -/
  | endBatch (outer always : Bool)
  deriving Inhabited

/-- What is to happen next. -/
inductive Task where
  | operate (op : Op)
  /-- Tells the listeners of readers, each about its value at that time. -/
  | notifyReaders (scope : ScopeId) (readers : List ReaderId)
  | notifyDefinition (scope : ScopeId) (slot : SlotId)
  | tell (listener : Listener) (value : SlotValue)
  | write (scope : ScopeId) (slot : SlotId) (value : SlotValue)
  | moveDefinition (scope : ScopeId) (slot : SlotId) (position : Position)
  | moveReader (scope : ScopeId) (reader : ReaderId) (position : Position)
  | removeDefinition (scope : ScopeId) (slot : SlotId)
  | removeReader (scope : ScopeId) (reader : ReaderId)
  /-- Gives the client a handle to a definition that is added. -/
  | keepDefinition (scope : ScopeId) (slot : SlotId) (name : String)
  | cancel (command : CommandId)
  | cell (id : CellId) (task : CellTask)
  /-- Nothing; until then a change in progress refers to the scope. -/
  | releaseScope (scope : ScopeId)
  /-- Nothing; until then a change in progress refers to the cell. -/
  | releaseCell (cell : CellId)
  deriving Inhabited

/-- What can be seen from outside. -/
inductive Event where
  | dispatched (id : CommandId) (command : Command)
  | cancelled (id : CommandId)
  | told (subscription : SubscriptionId) (value : SlotValue)
  deriving DecidableEq, Inhabited

structure DefinitionHandle where
  scope : ScopeId
  slot : SlotId
  name : String
  deriving DecidableEq, Inhabited

structure ReaderHandle where
  scope : ScopeId
  reader : ReaderId
  name : String
  deriving DecidableEq, Inhabited

/-- A client's subscription. -/
structure Subscription where
  handle : HandleRef
  reaction : Nat → SlotValue → List Op
  /-- How often it was called. -/
  calls : Nat := 0
  /-- Whether the client can still end it. -/
  held : Bool := true
  deriving Inhabited

structure Workspace where
  backend : Backend
  tree : ScopeTree := .root
  cells : Std.TreeMap CellId Cell := {}
  nextCell : CellId := 0
  commands : DispatchQueue CommandId Command := .empty
  nextCommand : CommandId := 0
  /-- The scopes that the client refers to. -/
  heldScopes : List ScopeId := [ScopeTree.rootId]
  /-- The cells that the client refers to. -/
  heldCells : List CellId := []
  definitions : Array DefinitionHandle := #[]
  readers : Array ReaderHandle := #[]
  subscriptions : Array Subscription := #[]
  agenda : List Task := []
  /-- The events since the client's last operation. -/
  history : List Event := []

namespace Workspace

def cell? (w : Workspace) (c : CellId) : Option Cell := w.cells[c]?

def putCell (w : Workspace) (c : CellId) (cell : Cell) : Workspace :=
  { w with cells := w.cells.insert c cell }

/-- Puts tasks in front of the agenda. -/
def push (w : Workspace) (tasks : List Task) : Workspace := { w with agenda := tasks ++ w.agenda }

def record (w : Workspace) (e : Event) : Workspace := { w with history := w.history ++ [e] }

/-- The value of a cell's input. -/
def inputValue (w : Workspace) (i : CellInput) : SlotValue := w.tree.readerValue i.scope i.reader

/-- The value of a cell's output. -/
def outputValue (w : Workspace) (o : CellOutput) : SlotValue := w.tree.value o.scope o.slot

/-- The inputs of a cell that are defined, by name. -/
def definedInputs (w : Workspace) (cell : Cell) : Inputs :=
  cell.inputs.toList.filterMap fun (name, i) =>
    (w.inputValue i).defined?.map fun value => (name, value)

end Workspace

end MathCanvas
