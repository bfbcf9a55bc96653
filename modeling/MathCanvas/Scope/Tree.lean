import MathCanvas.Binding.Update

/-!
# The tree of scopes

Scopes nest. An open scope *imports* every name that is in use in it: a reader of the name in the
parent scope, at the place where the scope starts, feeds the importer of the name. A closed scope
and the root import nothing. Imports come and go with the names in use, and may bring the name
into use in the parent, and so on up the chain of ancestors (`ScopeTree.link`,
`ScopeTree.unlink`).

Operations on the tree return the readers that have to be told about a new value; who listens to
them is recorded here, and telling them is left to the caller.
-/

namespace MathCanvas

abbrev ScopeId := Nat

abbrev CellId := Nat

/-- The number of a client's subscription. -/
abbrev SubscriptionId := Nat

/-- Who wants to know about a new value. -/
inductive Listener where
  /-- The importer of a name in a scope. -/
  | importer (scope : ScopeId) (name : String)
  /-- An input of a cell. -/
  | input (cell : CellId) (name : String)
  | client (subscription : SubscriptionId)
  deriving DecidableEq, Inhabited

structure Scope where
  name : String
  /-- A closed scope does not see what is defined outside. -/
  closed : Bool
  start : Position
  /-- The scopes around this one, innermost first. -/
  ancestors : List ScopeId
  bindings : Bindings := {}
  readerListeners : Std.TreeMap ReaderId (List Listener) := {}
  definitionListeners : Std.TreeMap SlotId (List Listener) := {}
  /-- The imported names, each with its reader in the parent. -/
  imports : Std.TreeMap String ReaderId := {}
  deriving Inhabited

/-- All scopes. A scope that nobody refers to any more is not among them. -/
structure ScopeTree where
  scopes : Std.TreeMap ScopeId Scope := {}
  nextId : ScopeId := 0
  deriving Inhabited

namespace ScopeTree

def rootId : ScopeId := 0

/-- A tree that consists of its root. -/
def root : ScopeTree where
  scopes := Std.TreeMap.empty.insert rootId
    { name := "root", closed := false, start := .origin, ancestors := [] }
  nextId := 1

def get? (t : ScopeTree) (s : ScopeId) : Option Scope := t.scopes[s]?

def modify (t : ScopeTree) (s : ScopeId) (f : Scope → Scope) : ScopeTree :=
  { t with scopes := t.scopes.modify s f }

def setBindings (t : ScopeTree) (s : ScopeId) (bindings : Bindings) : ScopeTree :=
  t.modify s fun scope => { scope with bindings }

/-- A new scope inside another one. -/
def child (t : ScopeTree) (parent : ScopeId) (name : String) (start : Position) (closed : Bool) :
    ScopeId × ScopeTree :=
  let ancestors := match t.get? parent with
    | some scope => parent :: scope.ancestors
    | none => []
  (t.nextId,
    { scopes := t.scopes.insert t.nextId { name, closed, start, ancestors }
      nextId := t.nextId + 1 })

def ancestors (t : ScopeTree) (s : ScopeId) : List ScopeId :=
  match t.get? s with
  | some scope => scope.ancestors
  | none => []

/-! ### Values -/

/-- The value of a definition; a definition that is gone is unset. -/
def value (t : ScopeTree) (s : ScopeId) (id : SlotId) : SlotValue :=
  (t.get? s).bind (·.bindings.value? id) |>.getD .unset

/-- The value that a reader observes; a reader that is gone observes an unset definition. -/
def readerValue (t : ScopeTree) (s : ScopeId) (id : ReaderId) : SlotValue :=
  (t.get? s).bind (·.bindings.readerValue? id) |>.getD .unset

/-! ### Listeners -/

/-- Adds a listener behind those that are there. -/
def addListener (listeners : Std.TreeMap Nat (List Listener)) (id : Nat) (l : Listener) :
    Std.TreeMap Nat (List Listener) :=
  listeners.insert id ((listeners[id]?).getD [] ++ [l])

def dropListener (listeners : Std.TreeMap Nat (List Listener)) (id : Nat) (l : Listener) :
    Std.TreeMap Nat (List Listener) :=
  listeners.modify id fun ls => ls.filter (· != l)

def listenToReader (t : ScopeTree) (s : ScopeId) (id : ReaderId) (l : Listener) : ScopeTree :=
  t.modify s fun scope => { scope with readerListeners := addListener scope.readerListeners id l }

def listenToDefinition (t : ScopeTree) (s : ScopeId) (id : SlotId) (l : Listener) : ScopeTree :=
  t.modify s fun scope =>
    { scope with definitionListeners := addListener scope.definitionListeners id l }

def ignoreReader (t : ScopeTree) (s : ScopeId) (id : ReaderId) (l : Listener) : ScopeTree :=
  t.modify s fun scope => { scope with readerListeners := dropListener scope.readerListeners id l }

def ignoreDefinition (t : ScopeTree) (s : ScopeId) (id : SlotId) (l : Listener) : ScopeTree :=
  t.modify s fun scope =>
    { scope with definitionListeners := dropListener scope.definitionListeners id l }

/-- The value that a reader observes and those who listen to it, if the reader is there. -/
def readerNotice? (t : ScopeTree) (s : ScopeId) (id : ReaderId) :
    Option (SlotValue × List Listener) := do
  let scope ← t.get? s
  let value ← scope.bindings.readerValue? id
  return (value, (scope.readerListeners[id]?).getD [])

/-- The value of a definition and those who listen to it, if the definition is there. -/
def definitionNotice? (t : ScopeTree) (s : ScopeId) (id : SlotId) :
    Option (SlotValue × List Listener) := do
  let scope ← t.get? s
  let value ← scope.bindings.value? id
  return (value, (scope.definitionListeners[id]?).getD [])

/-! ### Imports -/

/-- Lets a scope import a name through its chain of ancestors. Returns the readers in the scope
whose value changes by that. The new readers in the ancestors have no listeners yet except the
importers below them, so nobody else has to be told. -/
def link (t : ScopeTree) (s : ScopeId) (name : String) :
    List ScopeId → List ReaderId × ScopeTree
  | [] => ([], t)
  | parent :: further =>
    match t.get? s, t.get? parent with
    | some scope, some around =>
      if scope.closed then ([], t)
      else
        let (reader, changes, bindings) := around.bindings.addReader name scope.start
        let t := t.setBindings parent bindings
        let t := if changes.opened.isEmpty then t else (t.link parent name further).2
        let t := t.listenToReader parent reader (.importer s name)
        let (changes, bindings) := scope.bindings.setImported name (t.readerValue parent reader)
        (changes.readers, t.modify s fun scope =>
          { scope with bindings, imports := scope.imports.insert name reader })
    | _, _ => ([], t)

/-- Ends the import of a name. Its reader in the parent goes, and with it, if nothing else uses
the name there, the import of the parent, and so on up the chain. -/
def unlink (t : ScopeTree) (s : ScopeId) (name : String) : List ScopeId → ScopeTree
  | [] => t
  | parent :: further =>
    match (t.get? s).bind (·.imports[name]?) with
    | none => t
    | some reader =>
      let t := t.modify s fun scope => { scope with imports := scope.imports.erase name }
      match t.get? parent with
      | none => t
      | some around =>
        let (changes, bindings) := around.bindings.removeReader reader
        let t := t.modify parent fun around =>
          { around with bindings, readerListeners := around.readerListeners.erase reader }
        if changes.closed.isEmpty then t else t.unlink parent name further

/-- Brings the imports of a scope in step with a change of its bindings. Returns the readers in
the scope that have to be told. -/
def follow (t : ScopeTree) (s : ScopeId) (changes : Changes) : List ReaderId × ScopeTree :=
  let ancestors := t.ancestors s
  let t := changes.closed.foldl (fun t name => t.unlink s name ancestors) t
  changes.opened.foldl
    (fun (readers, t) name =>
      let (more, t) := t.link s name ancestors
      (readers ++ more, t))
    (changes.readers, t)

/-- Removes a scope and its imports. -/
def remove (t : ScopeTree) (s : ScopeId) : ScopeTree :=
  let ancestors := t.ancestors s
  let names := match t.get? s with
    | some scope => scope.imports.keys
    | none => []
  let t := names.foldl (fun t name => t.unlink s name ancestors) t
  { t with scopes := t.scopes.erase s }

/-! ### Operations on the bindings of a scope -/

/-- Changes the bindings of a scope. Returns the readers in it that have to be told; a scope that
is gone does not change. -/
def update (t : ScopeTree) (s : ScopeId) (f : Bindings → Changes × Bindings) :
    List ReaderId × ScopeTree :=
  match t.get? s with
  | some scope =>
    let (changes, bindings) := f scope.bindings
    (t.setBindings s bindings).follow s changes
  | none => ([], t)

def addDefinition (t : ScopeTree) (s : ScopeId) (name : String) (p : Position) :
    Option (SlotId × List ReaderId × ScopeTree) :=
  (t.get? s).map fun scope =>
    let (id, changes, bindings) := scope.bindings.addDefinition name p
    (id, (t.setBindings s bindings).follow s changes)

def addReader (t : ScopeTree) (s : ScopeId) (name : String) (p : Position) :
    Option (ReaderId × List ReaderId × ScopeTree) :=
  (t.get? s).map fun scope =>
    let (id, changes, bindings) := scope.bindings.addReader name p
    (id, (t.setBindings s bindings).follow s changes)

def removeDefinition (t : ScopeTree) (s : ScopeId) (id : SlotId) : List ReaderId × ScopeTree :=
  (t.modify s fun scope =>
      { scope with definitionListeners := scope.definitionListeners.erase id }).update s
    (·.removeDefinition id)

def removeReader (t : ScopeTree) (s : ScopeId) (id : ReaderId) : List ReaderId × ScopeTree :=
  (t.modify s fun scope =>
      { scope with readerListeners := scope.readerListeners.erase id }).update s
    (·.removeReader id)

def moveDefinition (t : ScopeTree) (s : ScopeId) (id : SlotId) (p : Position) :
    List ReaderId × ScopeTree :=
  t.update s (·.moveDefinition id p)

def moveReader (t : ScopeTree) (s : ScopeId) (id : ReaderId) (p : Position) :
    List ReaderId × ScopeTree :=
  t.update s (·.moveReader id p)

def setImported (t : ScopeTree) (s : ScopeId) (name : String) (value : SlotValue) :
    List ReaderId × ScopeTree :=
  t.update s (·.setImported name value)

/-- Writes the value of a definition. Also says whether it is another value than before; a NaN
always is. -/
def write (t : ScopeTree) (s : ScopeId) (id : SlotId) (value : SlotValue) :
    Bool × List ReaderId × ScopeTree :=
  match t.get? s with
  | some scope =>
    let same := (scope.bindings.value? id).any (·.valueEq value)
    let (changes, bindings) := scope.bindings.setValue id value
    (!same, changes.readers, t.setBindings s bindings)
  | none => (false, [], t)

end ScopeTree

end MathCanvas
