import MathCanvas.Binding.Basic

/-!
# Consistency of bindings

`Bindings.check` looks for the first defect in the redundant parts of a table. It goes through the
slots of every name and compares, at the end, the number of readers and slots that it met with the
number that there are.
-/

namespace MathCanvas

/-- What can be wrong with bindings. The name is the one whose slots were being checked. -/
inductive BindingDefect where
  | missingSlot (name : String) (slot : SlotId)
  | wrongIndex (name : String) (slot : SlotId) (index expected : Nat)
  | wrongName (name : String) (slot : SlotId) (found : String)
  | misplacedImporter (name : String)
  | outOfOrder (name : String) (index : Nat)
  | missingReader (name : String) (reader : ReaderId)
  | boundElsewhere (name : String) (reader : ReaderId)
  | outOfReach (name : String) (position : Position) (start : SlotPlace) (stop : Option SlotPlace)
  | unusedName (name : String)
  | readerCount (attached registered : Nat)
  | slotCount (listed stored : Nat)
  deriving DecidableEq, Inhabited

def BindingDefect.message : BindingDefect → String
  | .missingSlot name slot => s!"{name}: slot {slot} missing from arena"
  | .wrongIndex name slot index expected => s!"{name}: slot {slot} has index {index} at {expected}"
  | .wrongName name slot found => s!"{name}: slot {slot} belongs to {found}"
  | .misplacedImporter name => s!"{name}: importer not at index 0"
  | .outOfOrder name index => s!"{name}: slots out of order at {index}"
  | .missingReader name reader => s!"{name}: dangling getter {reader}"
  | .boundElsewhere name reader => s!"{name}: getter {reader} bound elsewhere"
  | .outOfReach name position start stop =>
    name ++ ": getter at " ++ position.text ++ " outside [" ++ start.text ++ ", "
      ++ (stop.map SlotPlace.text).getD "end" ++ ")"
  | .unusedName name => s!"{name}: unused list was not collected"
  | .readerCount attached registered =>
    s!"{attached} attached getters but {registered} registered"
  | .slotCount listed stored => s!"{listed} listed slots but {stored} in arena"

namespace Bindings

/-- Checks a reader that a slot claims. -/
def checkReader (b : Bindings) (name : String) (id : SlotId) (slot : Slot)
    (next : Option SlotPlace) (reader : ReaderId) : Except BindingDefect Unit :=
  match b.readers[reader]? with
  | none => .error (.missingReader name reader)
  | some r =>
    let place := SlotPlace.placed r.position
    if r.slot ≠ id then .error (.boundElsewhere name reader)
    else if place < slot.place ∨ next.any (fun next => decide (next ≤ place)) then
      .error (.outOfReach name r.position slot.place next)
    else .ok ()

/-- Checks the slots of a name from an index on, and counts their readers. -/
def checkSlots (b : Bindings) (name : String) (index : Nat) :
    List SlotId → Except BindingDefect Nat
  | [] => .ok 0
  | id :: rest => do
    match b.slots[id]? with
    | none => throw (.missingSlot name id)
    | some slot =>
      if slot.index ≠ index then throw (.wrongIndex name id slot.index index)
      if slot.name ≠ name then throw (.wrongName name id slot.name)
      if decide (index = 0) ≠ slot.place.isImporter then throw (.misplacedImporter name)
      let next ← match rest with
        | [] => pure none
        | following :: _ =>
          match b.place? following with
          | some place => pure (some place)
          | none => throw (.missingSlot name following)
      if next.any fun next => decide (next < slot.place) then throw (.outOfOrder name index)
      slot.readers.forM (b.checkReader name id slot next)
      return slot.readers.length + (← b.checkSlots name (index + 1) rest)

/-- Checks one name, and counts the readers of its slots. -/
def checkName (b : Bindings) (name : String) (ids : List SlotId) : Except BindingDefect Nat := do
  let attached ← b.checkSlots name 0 ids
  match ids with
  | [] => throw (.misplacedImporter name)
  | [importer] => if b.isRead importer then pure () else throw (.unusedName name)
  | _ => pure ()
  return attached

/-- The first defect of a table, if there is one. -/
def check (b : Bindings) : Except BindingDefect Unit := do
  let attached ← b.lists.toList.foldlM
    (fun total (name, ids) => return total + (← b.checkName name ids)) 0
  if attached ≠ b.readers.size then throw (.readerCount attached b.readers.size)
  let listed := b.lists.toList.foldl (fun total entry => total + entry.2.length) 0
  if listed ≠ b.slots.size then throw (.slotCount listed b.slots.size)

end Bindings

end MathCanvas
