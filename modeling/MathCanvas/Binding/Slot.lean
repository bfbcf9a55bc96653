import MathCanvas.Expr.Basic
import MathCanvas.Geometry.Position

/-!
# Slots and readers

A name has *slots*: one for each definition of it, and before them all an *importer*, which holds
what the name means outside. A *reader* of the name observes the value of the last slot at or
before its own position.

The value of a slot is `free` if the name has no meaning (importers only), `unset` if a definition
has no value at the moment, or a defined expression.
-/

namespace MathCanvas

/-- The number of a slot, be it a definition or an importer. -/
abbrev SlotId := Nat

/-- The number of a reader. -/
abbrev ReaderId := Nat

/-- What a slot holds and its readers observe. -/
inductive SlotValue where
  | free
  | unset
  | defined (value : Expr)
  deriving DecidableEq, Inhabited

namespace SlotValue

/-- Equality of values, with numbers compared as numbers. -/
def valueEq : SlotValue → SlotValue → Bool
  | .free, .free => true
  | .unset, .unset => true
  | .defined a, .defined b => a.valueEq b
  | _, _ => false

def isUnset : SlotValue → Bool
  | .unset => true
  | _ => false

def defined? : SlotValue → Option Expr
  | .defined value => some value
  | _ => none

end SlotValue

/-- The place of a slot in the list of its name. -/
inductive SlotPlace where
  /-- Before all positions. -/
  | importer
  | placed (position : Position)
  deriving DecidableEq, Inhabited

namespace SlotPlace

/-- The order of places: the importer, then positions in reading order. -/
def le : SlotPlace → SlotPlace → Prop
  | .importer, _ => True
  | .placed _, .importer => False
  | .placed p, .placed q => p ≤ q

def lt : SlotPlace → SlotPlace → Prop
  | .importer, .importer => False
  | .importer, .placed _ => True
  | .placed _, .importer => False
  | .placed p, .placed q => p < q

instance : LE SlotPlace := ⟨le⟩
instance : LT SlotPlace := ⟨lt⟩

instance (a b : SlotPlace) : Decidable (a ≤ b) :=
  match a, b with
  | .importer, _ => isTrue trivial
  | .placed _, .importer => isFalse id
  | .placed p, .placed q => inferInstanceAs (Decidable (p ≤ q))

instance (a b : SlotPlace) : Decidable (a < b) :=
  match a, b with
  | .importer, .importer => isFalse id
  | .importer, .placed _ => isTrue trivial
  | .placed _, .importer => isFalse id
  | .placed p, .placed q => inferInstanceAs (Decidable (p < q))

theorem not_le {a b : SlotPlace} : ¬a ≤ b ↔ b < a := by
  cases a <;> cases b
  · exact ⟨fun h => h trivial, fun h => h.elim⟩
  · exact ⟨fun h => h trivial, fun h => h.elim⟩
  · exact ⟨fun _ => trivial, fun _ h => h⟩
  · exact Position.not_le

def isImporter : SlotPlace → Bool
  | .importer => true
  | .placed _ => false

def position? : SlotPlace → Option Position
  | .importer => none
  | .placed p => some p

def text : SlotPlace → String
  | .importer => "importer"
  | .placed p => p.text

end SlotPlace

/-- A definition or importer of a name. -/
structure Slot where
  name : String
  place : SlotPlace
  /-- The place among the slots of the name; the importer has index zero. -/
  index : Nat
  value : SlotValue
  /-- The readers that observe this slot, in no particular order. -/
  readers : List ReaderId
  deriving DecidableEq, Inhabited

/-- A read of a name. -/
structure Reader where
  name : String
  position : Position
  /-- The slot that is observed. -/
  slot : SlotId
  deriving DecidableEq, Inhabited

/-- What an operation on bindings brings about elsewhere. -/
structure Changes where
  /-- The readers that observe another value than before, in document order. -/
  readers : List ReaderId := []
  /-- The names that came into use. -/
  opened : List String := []
  /-- The names that went out of use. -/
  closed : List String := []
  deriving DecidableEq, Inhabited

namespace Changes

def isEmpty (c : Changes) : Bool := c.readers.isEmpty && c.opened.isEmpty && c.closed.isEmpty

end Changes

end MathCanvas
