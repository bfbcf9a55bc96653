import MathCanvas.Document.Settings
import MathCanvas.Text.Uuid
import MathCanvas.Workspace.Run

/-!
# Documents

A document is a plane with cells on it, and with *regions*: stretches of the reading order that
have a scope of their own. A cell belongs to the scope of the innermost region around its position
(`Document.scopeAt`), or else to the root scope.

Regions are kept outer ones first: by start, those with one start by end, the later end first. The
scope of a region lies within that of the innermost other region that contains its start, provided
that this one comes before it.
-/

namespace MathCanvas

abbrev RegionId := Nat

/-- What a client names a cell or region by: its number, or an identifier from elsewhere. -/
inductive Key where
  | own (n : Nat)
  | foreign (id : Uuid)
  deriving DecidableEq, Inhabited

namespace Key

/-- The text of a key; numbers stand behind a letter for their kind. -/
def text (letter : String) : Key → String
  | .own n => letter ++ toString n
  | .foreign id => id.text

def own? : Key → Option Nat
  | .own n => some n
  | .foreign _ => none

end Key

/-- Why an operation on a document is refused. -/
inductive DocumentError where
  | unknownCell (key : Key)
  | unknownRegion (key : Key)
  | invalidRegion (start stop : Position)
  deriving DecidableEq, Inhabited

def DocumentError.message : DocumentError → String
  | .unknownCell key => "unknown cell " ++ key.text "k"
  | .unknownRegion key => "unknown scope " ++ key.text "r"
  | .invalidRegion start stop =>
    "scope region must end after it starts (start " ++ start.text ++ ", end " ++ stop.text ++ ")"

/-- A stretch of the document with a scope of its own. -/
structure Region where
  id : RegionId
  name : String
  start : Position
  stop : Position
  closed : Bool
  /-- The region whose scope is around the scope of this one; none for the root scope. -/
  parent : Option RegionId
  scope : ScopeId
  deriving DecidableEq, Inhabited

namespace Region

def contains (r : Region) (p : Position) : Bool := Span.contains ⟨some r.start, some r.stop⟩ p

/-- Whether a region comes before another or shares its place in the order of regions. -/
def notAfter (a b : Region) : Bool :=
  decide (a.start < b.start) || (a.start.same b.start && decide (b.stop ≤ a.stop))

/-- The last of some regions in the order of regions; of several in one place the last in the
list. -/
def latest (candidates : List (Region × Nat)) : Option (Region × Nat) :=
  candidates.foldl
    (fun best entry =>
      match best with
      | none => some entry
      | some old => if old.1.notAfter entry.1 then some entry else some old)
    none

/-- The innermost of the regions around a position, with its index. -/
def innermost? (regions : List Region) (p : Position) : Option (Region × Nat) :=
  latest (regions.zipIdx.filter fun entry => entry.1.contains p)

/-- The region whose scope is around that of the region at an index: the innermost other region
around its start, if that comes earlier. -/
def parentOf (regions : List Region) (r : Region) (index : Nat) : Option RegionId :=
  let others := regions.zipIdx.filter fun entry => entry.1.id != r.id && entry.1.contains r.start
  ((latest others).filter fun entry => decide (entry.2 < index)).map (·.1.id)

/-- The scope of a region in a list, or the root scope. -/
def scopeOf (regions : List Region) (id : Option RegionId) : ScopeId :=
  match id.bind fun id => regions.find? (·.id == id) with
  | some region => region.scope
  | none => ScopeTree.rootId

end Region

/-- A cell of a document. -/
structure Entry where
  cell : CellId
  /-- The extent of the cell, if it has one of its own. -/
  size : Option Size
  deriving DecidableEq, Inhabited

structure Document where
  settings : DocumentSettings
  workspace : Workspace
  /-- The regions in order, outer ones first. -/
  regions : List Region := []
  nextRegion : RegionId := 0
  /-- The cells in document order. -/
  entries : List Entry := []

namespace Document

/-- A document without cells and regions. -/
def new (settings : DocumentSettings) (backend : Backend) : Document :=
  { settings, workspace := { backend } }

/-- The position of a cell. -/
def positionOf (d : Document) (c : CellId) : Position :=
  match d.workspace.cell? c with
  | some cell => cell.position
  | none => .origin

/-- The scope that a position belongs to. -/
def scopeAt (d : Document) (p : Position) : ScopeId :=
  match Region.innermost? d.regions p with
  | some (region, _) => region.scope
  | none => ScopeTree.rootId

/-- The number of a cell that a key names. -/
def cell? (d : Document) (key : Key) : Option CellId :=
  key.own?.filter fun c => d.entries.any (·.cell == c)

def region? (d : Document) (key : Key) : Option Region :=
  key.own?.bind fun id => d.regions.find? (·.id == id)

/-- The coordinate of a grid line nearest to a coordinate; without a positive step the coordinate
itself. -/
def snapCoordinate (value step : Binary64) : Binary64 :=
  if !step.isNaN && decide (0 < step.key) then (value / step).roundHalfAway * step else value

/-- The corner of the grid nearest to a position. -/
def snapToGrid (d : Document) (p : Position) : Position :=
  let grid := d.settings.gridCellSize
  ⟨snapCoordinate p.x grid.width, snapCoordinate p.y grid.height⟩

/-- Whether a cell covers a point, its edges included. -/
def covers (d : Document) (entry : Entry) (p : Position) : Bool :=
  let origin := d.positionOf entry.cell
  let corner := origin.offset (entry.size.getD d.settings.defaultElementSize)
  decide (origin.x.key ≤ p.x.key ∧ p.x.key ≤ corner.x.key
    ∧ origin.y.key ≤ p.y.key ∧ p.y.key ≤ corner.y.key)

/-- The last cell in document order that covers a point. -/
def elementAt (d : Document) (p : Position) : Option CellId :=
  (d.entries.reverse.find? fun entry => d.covers entry p).map (·.cell)

end Document

end MathCanvas
