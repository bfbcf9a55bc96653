import MathCanvas.Workspace.Basic

/-!
# References

A cell stays as long as the client or a change in progress refers to it, and a scope as long as one
of them, a cell in it, or a scope inside it does. `Workspace.sweep` removes the others.
-/

namespace MathCanvas

/-- The scope that a task keeps. -/
def Task.keptScope? : Task → Option ScopeId
  | .releaseScope s => some s
  | .cell _ (.enter scope) => scope
  | _ => none

/-- The cell that a task keeps. -/
def Task.keptCell? : Task → Option CellId
  | .releaseCell c => some c
  | _ => none

namespace Workspace

/-- Whether a cell is referred to, by the client or by a change in progress. -/
def refersToCell (w : Workspace) (c : CellId) : Bool :=
  w.heldCells.contains c || w.agenda.any fun task => task.keptCell? == some c

/-- The scopes that the client, a cell or a change in progress refers to. -/
def referredScopes (w : Workspace) : List ScopeId :=
  w.heldScopes ++ w.cells.values.filterMap (·.scope) ++ w.agenda.filterMap Task.keptScope?

/-- Removes a cell. Its readers and definitions stay, but nobody listens for it any more. -/
def forgetCell (w : Workspace) (c : CellId) (cell : Cell) : Workspace :=
  { w with
    cells := w.cells.erase c
    tree := cell.inputs.toList.foldl
      (fun tree (name, i) => tree.ignoreReader i.scope i.reader (.input c name)) w.tree }

/-- Removes the cells that nobody refers to, and then the scopes that nobody refers to and that are
not around a scope that stays. Inner scopes go before those around them. -/
def sweep (w : Workspace) : Workspace :=
  let w := w.cells.toList.foldl
    (fun w (c, cell) => if w.refersToCell c then w else w.forgetCell c cell) w
  let referred := w.referredScopes
  let kept := referred ++ referred.flatMap w.tree.ancestors
  { w with
    tree := w.tree.scopes.keys.reverse.foldl
      (fun tree s => if kept.contains s then tree else tree.remove s) w.tree }

end Workspace

end MathCanvas
