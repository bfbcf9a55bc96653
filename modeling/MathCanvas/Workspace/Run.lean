import MathCanvas.Workspace.Operation
import MathCanvas.Workspace.Reference

/-!
# Running

`Workspace.perform` does one task; `Workspace.step` takes the first task from the agenda, performs
it, and then removes the scopes and cells that nobody refers to any more. `Workspace.settle` does
this until the agenda is empty, and `Workspace.apply` makes an operation of the client and settles.
-/

namespace MathCanvas

namespace Workspace

/-- Performs a task. -/
def perform (w : Workspace) : Task → Workspace
  | .operate op => (w.operate op).2
  | .notifyReaders _ [] => w
  | .notifyReaders s (reader :: rest) =>
    match w.tree.readerNotice? s reader with
    | some (value, listeners) =>
      w.push (listeners.map (Task.tell · value) ++ [.notifyReaders s rest])
    | none => w.push [.notifyReaders s rest]
  | .notifyDefinition s slot =>
    match w.tree.definitionNotice? s slot with
    | some (value, listeners) => w.push (listeners.map (Task.tell · value))
    | none => w
  | .tell listener value => w.tell value listener
  | .write s slot value => w.write s slot value
  | .moveDefinition s slot p => w.spread s (w.tree.moveDefinition s slot p)
  | .moveReader s reader p => w.spread s (w.tree.moveReader s reader p)
  | .removeDefinition s slot => w.spread s (w.tree.removeDefinition s slot)
  | .removeReader s reader => w.spread s (w.tree.removeReader s reader)
  | .keepDefinition s slot name => { w with definitions := w.definitions.push ⟨s, slot, name⟩ }
  | .cancel id =>
    let w := w.record (.cancelled id)
    let w : Workspace :=
      if w.backend.keepsCancelled then w else { w with commands := w.commands.cancel id }
    w.push ((w.backend.onCancel id).map .operate)
  | .cell c task => w.onCell c fun cell => w.performCell c cell task
  | .releaseScope _ => w
  | .releaseCell _ => w

/-- Performs the first task of the agenda. -/
def step (w : Workspace) : Workspace :=
  match w.agenda with
  | [] => w
  | task :: rest => ({ w with agenda := rest }.perform task).sweep

/-- Performs at most `limit` tasks. -/
def settle (limit : Nat) (w : Workspace) : Workspace :=
  match limit, w.agenda with
  | 0, _ => w
  | _, [] => w
  | limit + 1, _ :: _ => settle limit w.step

/-- The number of tasks that an operation is given to finish. -/
def taskLimit : Nat := 10000000

/-- Makes an operation of the client and performs all that it sets off. The history afterwards is
that of this operation alone. -/
def apply (w : Workspace) (op : Op) : OpResult × Workspace :=
  let (result, w) := { w with history := [] }.operate op
  (result, w.sweep.settle taskLimit)

end Workspace

end MathCanvas
