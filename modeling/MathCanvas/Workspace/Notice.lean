import MathCanvas.Workspace.Basic

/-!
# Telling about values

`Workspace.write` gives a definition a value and lets those know who listen to it; `Workspace.tell`
is what a listener does about a value. An inner scope imports it, a cell takes it as an input and
refreshes, and a client's subscription makes the changes of its reaction.
`Workspace.subscribe` and `Workspace.letGo` begin and end the client's subscriptions.
-/

namespace MathCanvas

namespace Workspace

/-- The tasks that tell about new values in a scope; until they are done the scope is referred
to. -/
def noticeTasks (s : ScopeId) (readers : List ReaderId) : List Task :=
  [.notifyReaders s readers, .releaseScope s]

/-- Goes on after a change of a scope's bindings. -/
def spread (w : Workspace) (s : ScopeId) (result : List ReaderId × ScopeTree) : Workspace :=
  { w with tree := result.2 }.push (noticeTasks s result.1)

/-- Writes a definition. Listeners hear of it only if the value is another one. -/
def write (w : Workspace) (s : ScopeId) (id : SlotId) (value : SlotValue) : Workspace :=
  let (changed, readers, tree) := w.tree.write s id value
  let w : Workspace := { w with tree }
  if changed then w.push [.notifyReaders s readers, .notifyDefinition s id, .releaseScope s]
  else w

/-- Tells a listener about a value. -/
def tell (w : Workspace) (value : SlotValue) : Listener → Workspace
  | .importer s name =>
    match w.tree.get? s with
    | some _ => w.spread s (w.tree.setImported s name value)
    | none => w
  | .input c name =>
    match w.cell? c with
    | none => w
    | some cell =>
      match cell.inputs[name]? with
      | none => w
      | some i =>
        if i.last.valueEq value then w
        else
          let cell := { cell with inputs := cell.inputs.insert name { i with last := value } }
          if cell.suspended then w.putCell c { cell with dirty := true }
          else (w.putCell c cell).push [.cell c .refresh, .releaseCell c]
  | .client k =>
    match w.subscriptions[k]? with
    | none => w
    | some sub =>
      let w : Workspace :=
        { w with subscriptions := w.subscriptions.set! k { sub with calls := sub.calls + 1 } }
      (w.record (.told k value)).push ((sub.reaction sub.calls value).map .operate)

/-- Ends the client's hold of a subscription, and the subscription itself unless it is only
detached. -/
def letGo (w : Workspace) (k : SubscriptionId) (ends : Bool) : Workspace :=
  match w.subscriptions[k]? with
  | none => w
  | some sub =>
    if sub.held then
      let w : Workspace :=
        { w with subscriptions := w.subscriptions.set! k { sub with held := false } }
      if ends then
        match sub.handle with
        | .definition n =>
          match w.definitions[n]? with
          | some h => { w with tree := w.tree.ignoreDefinition h.scope h.slot (.client k) }
          | none => w
        | .reader n =>
          match w.readers[n]? with
          | some h => { w with tree := w.tree.ignoreReader h.scope h.reader (.client k) }
          | none => w
      else w
    else w

/-- Adds a subscription of the client. -/
def subscribe (w : Workspace) (handle : HandleRef) (reaction : Nat → SlotValue → List Op) :
    Workspace :=
  let k := w.subscriptions.size
  let w : Workspace := { w with subscriptions := w.subscriptions.push { handle, reaction } }
  match handle with
  | .definition n =>
    match w.definitions[n]? with
    | some h => { w with tree := w.tree.listenToDefinition h.scope h.slot (.client k) }
    | none => w
  | .reader n =>
    match w.readers[n]? with
    | some h => { w with tree := w.tree.listenToReader h.scope h.reader (.client k) }
    | none => w

end Workspace

end MathCanvas
