import MathCanvas.Binding.Basic

/-!
# Changing bindings

Definitions and readers are added, moved and removed, and slots take values. Every operation
returns the new bindings and the `Changes` that follow: the readers that observe another value,
and the names that came into use or went out of it.

Readers change hands in few ways. A definition that is put into a list takes over the readers of
its predecessor from its position on; one that is taken out leaves its readers to its predecessor;
and one that moves between the same neighbours exchanges with its predecessor only the readers
that it passes.
-/

namespace MathCanvas

namespace Bindings

/-- What some readers observed before an operation; of several entries for one reader the first
counts. -/
abbrev Former := List (ReaderId × SlotValue)

/-! ### Parts of operations -/

/-- Brings a name into use: it gets an importer, which is free. -/
def openName (b : Bindings) (name : String) : Bindings × List String :=
  if b.lists.contains name then (b, [])
  else
    ({ b with
        lists := b.lists.insert name [b.nextId]
        slots := b.slots.insert b.nextId ⟨name, .importer, 0, .free, []⟩
        nextId := b.nextId + 1 },
      [name])

/-- Puts a name out of use if nothing defines or reads it any more. -/
def closeName (b : Bindings) (name : String) : Bindings × List String :=
  match b.slotsOf name with
  | [importer] =>
    if b.isRead importer then (b, [])
    else
      ({ b with lists := b.lists.erase name, slots := b.slots.erase importer }, [name])
  | _ => (b, [])

/-- Writes the indices of a name's slots anew. -/
def reindex (b : Bindings) (name : String) : Bindings :=
  { b with
    slots := (b.slotsOf name).zipIdx.foldl
      (fun slots (id, index) => slots.modify id fun slot => { slot with index }) b.slots }

/-- Hands the readers of one slot that `select` chooses by their positions over to another, and
notes what they observed. -/
def handOver (b : Bindings) (source target : SlotId) (select : Position → Bool) :
    Bindings × Former :=
  match b.slots[source]? with
  | none => (b, [])
  | some slot =>
    let chosen (r : ReaderId) : Bool := (b.readers[r]?).any fun reader => select reader.position
    let moved := slot.readers.filter chosen
    let kept := slot.readers.filter fun r => !chosen r
    let slots := b.slots.insert source { slot with readers := kept }
    ({ b with
        slots := slots.modify target fun slot => { slot with readers := slot.readers ++ moved }
        readers := moved.foldl
          (fun readers r => readers.modify r fun reader => { reader with slot := target })
          b.readers },
      moved.map fun r => (r, slot.value))

/-- Puts a definition into the list of its name. -/
def attach (b : Bindings) (id : SlotId) (name : String) (p : Position) : Bindings × Former :=
  let ids := b.slotsOf name
  let index := b.indexAfter ids p
  match ids[index - 1]? with
  | none => (b, [])
  | some before =>
    let placed : Bindings :=
      { b with
        lists := b.lists.insert name (ids.insertIdx index id)
        slots := b.slots.modify id fun slot => { slot with place := .placed p } }
    (placed.reindex name).handOver before id fun q => decide (p ≤ q)

/-- Takes a definition out of the list of its name. -/
def detach (b : Bindings) (id : SlotId) (slot : Slot) : Bindings × Former :=
  let ids := b.slotsOf slot.name
  match ids[slot.index - 1]? with
  | none => (b, [])
  | some before =>
    let (b, former) := b.handOver id before fun _ => true
    let b : Bindings := { b with lists := b.lists.insert slot.name (ids.eraseIdx slot.index) }
    (b.reindex slot.name, former)

/-- The first entry of each reader. -/
def firstEntries (former : Former) : Former :=
  former.foldl (fun seen entry => if seen.any (·.1 == entry.1) then seen else seen ++ [entry]) []

/-- The readers that observe another value than they did, in document order. -/
def affected (b : Bindings) (former : Former) : List ReaderId :=
  b.sortReaders <| ((firstEntries former).filter fun (r, before) =>
    (b.readerValue? r).any fun now => !now.valueEq before).map (·.1)

/-! ### Definitions -/

/-- Adds a definition of a name. It has no value yet. -/
def addDefinition (b : Bindings) (name : String) (p : Position) : SlotId × Changes × Bindings :=
  let (b, opened) := b.openName name
  let id := b.nextId
  let b : Bindings :=
    { b with
      slots := b.slots.insert id ⟨name, .placed p, 0, .unset, []⟩
      nextId := id + 1 }
  let (b, former) := b.attach id name p
  (id, { readers := b.affected former, opened }, b)

/-- Whether a definition that moves to `target` keeps its neighbours. -/
def staysBetween (b : Bindings) (slot : Slot) (target : SlotPlace) : Bool :=
  let ids := b.slotsOf slot.name
  (ids[slot.index - 1]?).any (b.isUpTo target) &&
    (ids[slot.index + 1]?).all fun next => !b.isUpTo target next

/-- Moves a definition. An importer stays where it is. -/
def moveDefinition (b : Bindings) (id : SlotId) (p : Position) : Changes × Bindings :=
  match b.slots[id]? with
  | some slot =>
    match slot.place with
    | .importer => ({}, b)
    | .placed old =>
      if old.same p then ({}, b)
      else if b.staysBetween slot (.placed p) then
        match (b.slotsOf slot.name)[slot.index - 1]? with
        | none => ({}, b)
        | some before =>
          let moved : Bindings :=
            { b with slots := b.slots.insert id { slot with place := .placed p } }
          let (b, former) :=
            if p < old then moved.handOver before id fun q => decide (p ≤ q)
            else moved.handOver id before fun q => decide (q < p)
          ({ readers := b.affected former }, b)
      else
        let (b, left) := b.detach id slot
        let (b, joined) := b.attach id slot.name p
        ({ readers := b.affected (left ++ joined) }, b)
  | none => ({}, b)

/-- Removes a definition. An importer cannot be removed. -/
def removeDefinition (b : Bindings) (id : SlotId) : Changes × Bindings :=
  match b.slots[id]? with
  | some slot =>
    match slot.place with
    | .importer => ({}, b)
    | .placed _ =>
      let (b, former) := b.detach id slot
      let b : Bindings := { b with slots := b.slots.erase id }
      let (b, closed) := b.closeName slot.name
      ({ readers := b.affected former, closed }, b)
  | none => ({}, b)

/-- Gives a slot a value. Nothing changes if it has an equal value. -/
def setValue (b : Bindings) (id : SlotId) (value : SlotValue) : Changes × Bindings :=
  match b.slots[id]? with
  | some slot =>
    if slot.value.valueEq value then ({}, b)
    else
      ({ readers := b.sortReaders slot.readers },
        { b with slots := b.slots.insert id { slot with value } })
  | none => ({}, b)

/-- Gives the importer of a name a value, if the name is in use. -/
def setImported (b : Bindings) (name : String) (value : SlotValue) : Changes × Bindings :=
  match b.importer? name with
  | some importer => b.setValue importer value
  | none => ({}, b)

/-! ### Readers -/

/-- Lets a reader observe a slot. -/
def bind (b : Bindings) (id : ReaderId) (reader : Reader) : Bindings :=
  { b with
    readers := b.readers.insert id reader
    slots := b.slots.modify reader.slot fun slot => { slot with readers := slot.readers ++ [id] } }

/-- Takes a reader from the slot that it observes. -/
def unbind (b : Bindings) (id : ReaderId) (slot : SlotId) : Bindings :=
  { b with
    slots := b.slots.modify slot fun slot =>
      { slot with readers := slot.readers.filter (· != id) } }

/-- Adds a reader of a name. -/
def addReader (b : Bindings) (name : String) (p : Position) : ReaderId × Changes × Bindings :=
  let (b, opened) := b.openName name
  let id := b.nextId
  let b : Bindings := { b with nextId := id + 1 }
  let slot := (b.slotAt? name p).getD id
  (id, { opened }, b.bind id ⟨name, p, slot⟩)

/-- Whether a place is within the reach of a slot: not before it, and before the next slot. -/
def reaches (b : Bindings) (id : SlotId) (place : SlotPlace) : Bool :=
  match b.slots[id]? with
  | some slot =>
    decide (slot.place ≤ place) &&
      ((b.slotsOf slot.name)[slot.index + 1]?).all fun next => !b.isUpTo place next
  | none => false

/-- Moves a reader. -/
def moveReader (b : Bindings) (id : ReaderId) (p : Position) : Changes × Bindings :=
  match b.readers[id]? with
  | some reader =>
    if b.reaches reader.slot (.placed p) then
      ({}, { b with readers := b.readers.insert id { reader with position := p } })
    else
      let former : Former := ((b.value? reader.slot).map fun value => (id, value)).toList
      let slot := (b.slotAt? reader.name p).getD reader.slot
      let b := (b.unbind id reader.slot).bind id { reader with position := p, slot }
      ({ readers := b.affected former }, b)
  | none => ({}, b)

/-- Removes a reader. -/
def removeReader (b : Bindings) (id : ReaderId) : Changes × Bindings :=
  match b.readers[id]? with
  | some reader =>
    let b : Bindings := { b with readers := b.readers.erase id }
    let (b, closed) := (b.unbind id reader.slot).closeName reader.name
    ({ closed }, b)
  | none => ({}, b)

end Bindings

end MathCanvas
