import MathCanvas.Proofs.Binding.Run

/-!
# What bindings mean

`Outline` is a table of definitions and readers without lists, indices and bindings. A definition
has a *stamp*, the time at which it came to its position. What a table lists and what a reader
observes is worked out from that (`Outline.slots`, `Outline.binding?`): the definitions of a name
stand in the order of their positions, those at one position in the order in which they came there,
and a reader observes the last one up to its position, or else the importer.
-/

namespace MathCanvas

/-- A definition of a name. -/
structure Definition where
  name : String
  position : Position
  value : SlotValue
  /-- When it came to its position. -/
  stamp : Nat
  deriving DecidableEq, Inhabited

namespace Definition

/-- Whether a definition stands before another one of its name. -/
def before (d e : Definition) : Prop :=
  d.position < e.position ∨ d.position.same e.position = true ∧ d.stamp < e.stamp

/-- Whether a definition does not stand behind another one of its name. -/
def le (d e : Definition) : Bool :=
  decide (d.position < e.position) ||
    (d.position.same e.position && decide (d.stamp ≤ e.stamp))

end Definition

/-- The definitions, the readers and the importers of a scope. -/
structure Outline where
  definitions : Std.TreeMap SlotId Definition := {}
  /-- The name and the position of every reader. -/
  readers : Std.TreeMap ReaderId (String × Position) := {}
  /-- The importer of every name in use, and what the name means outside. -/
  importers : Std.TreeMap String (SlotId × SlotValue) := {}
  nextId : Nat := 0
  /-- The time, which is the number of definitions that came to a position so far. -/
  clock : Nat := 0
  deriving Inhabited

namespace Outline

/-- Whether a name has a definition or a reader. -/
def isUsed (o : Outline) (name : String) : Bool :=
  o.definitions.toList.any (fun entry => entry.2.name == name) ||
    o.readers.toList.any fun entry => entry.2.1 == name

/-! ### Operations -/

def openName (o : Outline) (name : String) : Outline :=
  if o.isUsed name then o
  else
    { o with
      importers := o.importers.insert name (o.nextId, .free)
      nextId := o.nextId + 1 }

def closeName (o : Outline) (name : String) : Outline :=
  if o.isUsed name then o else { o with importers := o.importers.erase name }

def addDefinition (o : Outline) (name : String) (p : Position) : Outline :=
  let o := o.openName name
  { o with
    definitions := o.definitions.insert o.nextId ⟨name, p, .unset, o.clock⟩
    nextId := o.nextId + 1
    clock := o.clock + 1 }

def moveDefinition (o : Outline) (id : SlotId) (p : Position) : Outline :=
  match o.definitions[id]? with
  | none => o
  | some d =>
    if d.position.same p then o
    else
      { o with
        definitions := o.definitions.insert id { d with position := p, stamp := o.clock }
        clock := o.clock + 1 }

def removeDefinition (o : Outline) (id : SlotId) : Outline :=
  match o.definitions[id]? with
  | none => o
  | some d => ({ o with definitions := o.definitions.erase id } : Outline).closeName d.name

/-- A value that is written; an equal one stays. -/
def written (old new : SlotValue) : SlotValue := if old.valueEq new then old else new

def setValue (o : Outline) (id : SlotId) (v : SlotValue) : Outline :=
  { o with
    definitions := o.definitions.modify id fun d => { d with value := written d.value v }
    importers := o.importers.map fun _ (importer, old) =>
      (importer, if importer = id then written old v else old) }

def setImported (o : Outline) (name : String) (v : SlotValue) : Outline :=
  { o with importers := o.importers.modify name fun (importer, old) => (importer, written old v) }

def addReader (o : Outline) (name : String) (p : Position) : Outline :=
  let o := o.openName name
  { o with readers := o.readers.insert o.nextId (name, p), nextId := o.nextId + 1 }

def moveReader (o : Outline) (id : ReaderId) (p : Position) : Outline :=
  { o with readers := o.readers.modify id fun (name, _) => (name, p) }

def removeReader (o : Outline) (id : ReaderId) : Outline :=
  match o.readers[id]? with
  | none => o
  | some (name, _) => ({ o with readers := o.readers.erase id } : Outline).closeName name

def call (o : Outline) : BindingCall → Outline
  | .addDefinition name p => o.addDefinition name p
  | .moveDefinition id p => o.moveDefinition id p
  | .removeDefinition id => o.removeDefinition id
  | .setValue id v => o.setValue id v
  | .setImported name v => o.setImported name v
  | .addReader name p => o.addReader name p
  | .moveReader id p => o.moveReader id p
  | .removeReader id => o.removeReader id

/-- The number that the next definition or reader of a name gets. -/
def numberFor (o : Outline) (name : String) : Nat := (o.openName name).nextId

/-- The number that an operation gives out. -/
def made? (o : Outline) : BindingCall → Option Nat
  | .addDefinition name _ => some (o.numberFor name)
  | .addReader name _ => some (o.numberFor name)
  | _ => none

def run (calls : List BindingCall) : Outline := calls.foldl call {}

theorem run_append (calls : List BindingCall) (c : BindingCall) :
    run (calls ++ [c]) = (run calls).call c := by
  rw [run, List.foldl_append]
  rfl

/-! ### Questions -/

/-- The definitions of a name in order. -/
def definitionsOf (o : Outline) (name : String) : List (SlotId × Definition) :=
  sortBy (fun x y => x.2.le y.2) (o.definitions.toList.filter fun entry => entry.2.name == name)

/-- The slots of a name: its importer and its definitions in order. -/
def slots (o : Outline) (name : String) : List SlotId :=
  match o.importers[name]? with
  | some (importer, _) => importer :: (o.definitionsOf name).map Prod.fst
  | none => []

/-- The value of a definition or importer. -/
def value? (o : Outline) (id : SlotId) : Option SlotValue :=
  match o.definitions[id]? with
  | some d => some d.value
  | none => (o.importers.toList.find? fun entry => entry.2.1 == id).map (·.2.2)

/-- The slot that a reader observes: the last definition of its name up to its position, or the
importer. -/
def binding? (o : Outline) (r : ReaderId) : Option SlotId :=
  match o.readers[r]? with
  | none => none
  | some (name, p) =>
    match ((o.definitionsOf name).filter fun entry => decide (entry.2.position ≤ p)).getLast? with
    | some (id, _) => some id
    | none => (o.importers[name]?).map Prod.fst

def readerValue? (o : Outline) (r : ReaderId) : Option SlotValue :=
  (o.binding? r).bind o.value?

/-- Whether a reader is not after another in document order. -/
def readerLe (x y : ReaderId × String × Position) : Bool :=
  decide (x.2.2 < y.2.2) || (!decide (y.2.2 < x.2.2) && decide (x.1 ≤ y.1))

/-- The readers that observe a slot, in document order. -/
def readersOf (o : Outline) (id : SlotId) : List ReaderId :=
  (sortBy readerLe (o.readers.toList.filter fun entry => o.binding? entry.1 == some id)).map
    Prod.fst

/-- Whether a reader observes the importer of a name. -/
def IsImported (o : Outline) (name : String) : Prop :=
  ∃ importer value r, o.importers[name]? = some (importer, value) ∧ o.binding? r = some importer

end Outline

end MathCanvas
