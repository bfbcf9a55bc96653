import MathCanvas.Binding.Slot
import Std.Data.TreeMap

/-!
# The bindings of a scope

`Bindings` holds the slots of every name in use and the readers that observe them. A name is in
use as long as it has a definition or a reader; its slots are listed importer first, then the
definitions by position, those at one position in the order in which they came there.

The structure is redundant so that every question is a look-up: a slot knows its index and its
readers, and a reader knows its slot. The operations of `MathCanvas.Binding.Update` keep the
parts in step; `MathCanvas.Binding.Check` says what that means.
-/

namespace MathCanvas

/-- The slots and readers of one scope. -/
structure Bindings where
  /-- The slots of every name in use, importer first. -/
  lists : Std.TreeMap String (List SlotId) := {}
  slots : Std.TreeMap SlotId Slot := {}
  readers : Std.TreeMap ReaderId Reader := {}
  /-- The next number for a slot or reader; numbers are never used again. -/
  nextId : Nat := 0
  deriving Inhabited

namespace Bindings

def empty : Bindings := {}

/-! ### Looking up -/

/-- The slots of a name in order, importer first; none if the name is not in use. -/
def slotsOf (b : Bindings) (name : String) : List SlotId := (b.lists[name]?).getD []

/-- The importer of a name in use. -/
def importer? (b : Bindings) (name : String) : Option SlotId := (b.slotsOf name).head?

def value? (b : Bindings) (id : SlotId) : Option SlotValue := (b.slots[id]?).map (·.value)

def place? (b : Bindings) (id : SlotId) : Option SlotPlace := (b.slots[id]?).map (·.place)

/-- The slot that a reader observes. -/
def binding? (b : Bindings) (reader : ReaderId) : Option SlotId :=
  (b.readers[reader]?).map (·.slot)

/-- The value that a reader observes. -/
def readerValue? (b : Bindings) (reader : ReaderId) : Option SlotValue :=
  (b.binding? reader).bind b.value?

/-- The names in use, sorted. -/
def names (b : Bindings) : List String := b.lists.keys

/-- Whether a slot has readers. -/
def isRead (b : Bindings) (id : SlotId) : Bool :=
  match b.slots[id]? with
  | some slot => !slot.readers.isEmpty
  | none => false

/-- The names of which some reader observes the importer. -/
def importedNames (b : Bindings) : List String :=
  b.names.filter fun name => (b.importer? name).any b.isRead

/-- The names that have a definition. -/
def definedNames (b : Bindings) : List String :=
  b.names.filter fun name => decide (1 < (b.slotsOf name).length)

/-! ### Document order of readers -/

/-- Whether a reader is not after another: by position, then by number. -/
def readerLe (b : Bindings) (r s : ReaderId) : Bool :=
  match b.readers[r]?, b.readers[s]? with
  | none, some _ => true
  | some _, none => false
  | none, none => decide (r ≤ s)
  | some x, some y =>
    decide (x.position < y.position) || (!decide (y.position < x.position) && decide (r ≤ s))

/-- Readers in document order. -/
def sortReaders (b : Bindings) (readers : List ReaderId) : List ReaderId :=
  sortBy b.readerLe readers

/-- The readers of a slot in document order. -/
def readersOf (b : Bindings) (id : SlotId) : List ReaderId :=
  match b.slots[id]? with
  | some slot => b.sortReaders slot.readers
  | none => []

/-! ### Finding a place -/

/-- Whether a slot is at or before a place. -/
def isUpTo (b : Bindings) (place : SlotPlace) (id : SlotId) : Bool :=
  match b.place? id with
  | some p => decide (p ≤ place)
  | none => false

/-- The index of the first definition after a position; the importer is before every position. -/
def indexAfter (b : Bindings) (ids : List SlotId) (p : Position) : Nat :=
  1 + ((ids.drop 1).takeWhile (b.isUpTo (.placed p))).length

/-- The slot of a name that a reader at a position observes. -/
def slotAt? (b : Bindings) (name : String) (p : Position) : Option SlotId :=
  let ids := b.slotsOf name
  ids[b.indexAfter ids p - 1]?

end Bindings

end MathCanvas
