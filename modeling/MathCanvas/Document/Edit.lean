import MathCanvas.Document.Basic

/-!
# Editing documents

Cells are created, edited, moved and deleted, and regions come and go. After every operation each
cell is in the scope that its position belongs to. An operation that is refused changes nothing.
-/

namespace MathCanvas

namespace Document

/-- Performs operations one after the other, each with all that it sets off. -/
def run (d : Document) (ops : List Op) : Document :=
  let w := { d.workspace with history := [] }.push (ops.map .operate)
  { d with workspace := w.sweep.settle Workspace.taskLimit }

/-! ### Cells -/

/-- Puts a cell behind all cells that are not after its position. -/
def insertEntry (d : Document) (entry : Entry) (p : Position) : Document :=
  let index := (d.entries.takeWhile fun e => decide (d.positionOf e.cell ≤ p)).length
  { d with entries := d.entries.insertIdx index entry }

def removeEntry (d : Document) (c : CellId) : Document :=
  { d with entries := d.entries.filter (·.cell != c) }

/-- Creates a cell. -/
def createCell (d : Document) (p : Position) (e : Expr) : CellId × Document :=
  let c := d.workspace.nextCell
  let d := d.insertEntry ⟨c, none⟩ p
  (c, d.run [.newCell p e (some (d.scopeAt p)) (!d.settings.isManual)])

/-- Does something with a cell, or refuses if there is no such cell. -/
def onCell (d : Document) (key : Key) (f : CellId → Document) : Except DocumentError Document :=
  match d.cell? key with
  | some c => .ok (f c)
  | none => .error (.unknownCell key)

def setExpression (d : Document) (key : Key) (e : Expr) : Except DocumentError Document :=
  d.onCell key fun c => d.run [.setExpression c e]

def moveCell (d : Document) (key : Key) (p : Position) : Except DocumentError Document :=
  d.onCell key fun c =>
    match d.entries.find? (·.cell == c) with
    | some entry =>
      let d := (d.removeEntry c).insertEntry entry p
      d.run [.setPosition c p, .setScope c (some (d.scopeAt p))]
    | none => d

def deleteCell (d : Document) (key : Key) : Except DocumentError Document :=
  d.onCell key fun c => (d.removeEntry c).run [.setScope c none, .dropCell c]

def setCellSize (d : Document) (key : Key) (size : Size) : Except DocumentError Document :=
  d.onCell key fun c =>
    (({ d with
        entries := d.entries.map fun entry =>
          if entry.cell == c then { entry with size := some size } else entry }) : Document).run []

/-- Recalculates a cell whatever its status. -/
def recalculateCell (d : Document) (key : Key) : Except DocumentError Document :=
  d.onCell key fun c => d.run [.recalculate c]

/-- Recalculates every cell that is stale when its turn comes, in document order. -/
def recalculate (d : Document) : Document :=
  d.run (d.entries.map fun entry => .recalculateStale entry.cell)

def setCalculationMode (d : Document) (mode : CalculationMode) : Document :=
  ({ d with settings := { d.settings with calculationMode := mode } } : Document).run
    (d.entries.map fun entry => .setAutomatic entry.cell (mode == .automatic))

/-! ### Regions -/

/-- The state of giving regions their scopes: the scopes, the regions that are settled, and those
of them that got a new scope. -/
structure Settling where
  tree : ScopeTree
  settled : List Region
  rebuilt : List RegionId

/-- Settles the region at an index. It gets a new scope if it is new itself, if it has another
parent than before, or if its parent got a new scope. -/
def settleRegion (regions : List Region) (created : Option RegionId) (s : Settling)
    (r : Region) (index : Nat) : Settling :=
  let parent := Region.parentOf regions r index
  if created == some r.id || r.parent != parent || parent.any s.rebuilt.contains then
    let (scope, tree) :=
      s.tree.child (Region.scopeOf s.settled parent) r.name r.start r.closed
    ⟨tree, s.settled ++ [{ r with parent, scope }], r.id :: s.rebuilt⟩
  else { s with settled := s.settled ++ [r] }

/-- Puts regions in order, gives each its scope, and moves every cell to the scope that it belongs
to now. -/
def rehome (d : Document) (regions : List Region) (created : Option RegionId) : Document :=
  let regions := sortBy Region.notAfter regions
  let s := regions.zipIdx.foldl (fun s (r, index) => settleRegion regions created s r index)
    ⟨d.workspace.tree, [], []⟩
  let d : Document :=
    { d with
      regions := s.settled
      workspace := { d.workspace with
        tree := s.tree
        heldScopes := ScopeTree.rootId :: s.settled.map (·.scope) } }
  d.run (d.entries.map fun entry =>
    .setScope entry.cell (some (d.scopeAt (d.positionOf entry.cell))))

/-- Creates a region. It has to end after it starts. -/
def createRegion (d : Document) (name : String) (start stop : Position) (closed : Bool) :
    Except DocumentError (RegionId × Document) :=
  if stop ≤ start then .error (.invalidRegion start stop)
  else
    let id := d.nextRegion
    let region : Region := ⟨id, name, start, stop, closed, none, ScopeTree.rootId⟩
    .ok (id, ({ d with nextRegion := id + 1 } : Document).rehome (d.regions ++ [region]) (some id))

/-- Deletes a region. Its cells go to the scopes around it. -/
def deleteRegion (d : Document) (key : Key) : Except DocumentError Document :=
  match d.region? key with
  | some region => .ok (d.rehome (d.regions.filter (·.id != region.id)) none)
  | none => .error (.unknownRegion key)

end Document

end MathCanvas
