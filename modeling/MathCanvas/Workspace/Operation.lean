import MathCanvas.Workspace.Evaluation

/-!
# What the client does

`Workspace.operate` begins an operation: what can be done at once is done, and what it sets off is
put on the agenda.
-/

namespace MathCanvas

namespace Workspace

/-- Does something to a cell on behalf of the client, who has to refer to it. -/
def onHeldCell (w : Workspace) (c : CellId) (f : Cell → Workspace) : Workspace :=
  if w.heldCells.contains c then w.onCell c f else w

/-- The newest command that waits for an answer. -/
def newestCommand? (w : Workspace) : Option CommandId :=
  (w.commands.pending.map (·.1)).max?

/-- The command in the queue that has a given name. -/
def namedCommand? (w : Workspace) (text : String) : Option CommandId :=
  match w.backend.channel with
  | .direct => none
  | .queue name => (w.commands.pending.map (·.1)).find? fun id => name id == text

/-- Answers a command that waits. -/
def answerCommand (w : Workspace) (id : CommandId) (answer : Answer) : OpResult × Workspace :=
  match w.commands.take id with
  | (none, _) => (.nothingHeld, w)
  | (some command, commands) =>
    let w : Workspace := { w with commands }
    match answer with
    | .outcome outcome => (.answered id, w.receive id command.cell outcome)
    | .computed =>
      (.answered id,
        w.receive id command.cell (Calculator.evaluate command.inputs command.expression))
    | .unreadable e => (.unreadable e, w)

/-- Begins an operation of the client; what it sets off is put on the agenda. -/
def operate (w : Workspace) : Op → OpResult × Workspace
  | .child parent name start closed =>
    if w.heldScopes.contains parent then
      let (s, tree) := w.tree.child parent name start closed
      (.none, { w with tree, heldScopes := w.heldScopes ++ [s] })
    else (.none, w)
  | .dropScope s => (.none, { w with heldScopes := w.heldScopes.filter (· != s) })
  | .addDefinition s name p =>
    if w.heldScopes.contains s then
      match w.tree.addDefinition s name p with
      | some (slot, readers, tree) =>
        (.none, { w with tree }.push
          [.notifyReaders s readers, .keepDefinition s slot name, .releaseScope s])
      | none => (.none, w)
    else (.none, w)
  | .addReader s name p =>
    if w.heldScopes.contains s then
      match w.tree.addReader s name p with
      | some (reader, _, tree) =>
        (.none, { w with tree, readers := w.readers.push ⟨s, reader, name⟩ })
      | none => (.none, w)
    else (.none, w)
  | .set n value =>
    (.none, match w.definitions[n]? with
      | some h => w.write h.scope h.slot (.defined value)
      | none => w)
  | .clear n =>
    (.none, match w.definitions[n]? with
      | some h => w.write h.scope h.slot .unset
      | none => w)
  | .move (.definition n) p =>
    (.none, match w.definitions[n]? with
      | some h => w.push [.moveDefinition h.scope h.slot p]
      | none => w)
  | .move (.reader n) p =>
    (.none, match w.readers[n]? with
      | some h => w.push [.moveReader h.scope h.reader p]
      | none => w)
  | .remove (.definition n) =>
    (.none, match w.definitions[n]? with
      | some h => w.push [.removeDefinition h.scope h.slot]
      | none => w)
  | .remove (.reader n) =>
    (.none, match w.readers[n]? with
      | some h => w.push [.removeReader h.scope h.reader]
      | none => w)
  | .subscribe handle reaction => (.none, w.subscribe handle reaction)
  | .unsubscribe k => (.none, w.letGo k true)
  | .detach k => (.none, w.letGo k false)
  | .newCell position expression scope automatic =>
    let c := w.nextCell
    let w : Workspace := { w with nextCell := c + 1, heldCells := w.heldCells ++ [c] }
    let cell : Cell := { expression, position, automatic }
    (.none, (w.putCell c cell).setScope c cell (scope.filter w.heldScopes.contains))
  | .setScope c scope =>
    (.none, w.onHeldCell c fun cell =>
      if scope.all w.heldScopes.contains then w.setScope c cell scope else w)
  | .setExpression c expression =>
    (.none, w.onHeldCell c fun cell =>
      (w.push [.releaseCell c]).batch c { cell with expression } true)
  | .setPosition c position =>
    (.none, w.onHeldCell c fun cell =>
      if cell.position.same position then w
      else (w.push [.releaseCell c]).batch c { cell with position } false)
  | .setAutomatic c automatic =>
    (.none, w.onHeldCell c fun cell =>
      (w.putCell c { cell with automatic }).push <|
        if automatic && cell.status == .stale then [.cell c .evaluate, .releaseCell c] else [])
  | .recalculate c =>
    (.none, w.onHeldCell c fun _ => w.push [.cell c .invalidate, .cell c .evaluate, .releaseCell c])
  | .recalculateStale c =>
    (.none, w.onHeldCell c fun cell =>
      if cell.status == .stale then
        w.push [.cell c .invalidate, .cell c .evaluate, .releaseCell c]
      else w)
  | .dropCell c => (.none, { w with heldCells := w.heldCells.filter (· != c) })
  | .ask c name =>
    (match if w.heldCells.contains c then w.cell? c else none with
      | some cell =>
        .asked ((cell.inputs[name]?).map w.inputValue) ((cell.outputs[name]?).map w.outputValue)
      | none => .none, w)
  | .answer id answer =>
    match w.backend.channel, id.or w.newestCommand? with
    | .direct, some id => w.answerCommand id answer
    | _, _ => (.nothingHeld, w)
  | .next =>
    match w.backend.channel with
    | .direct => (.envelope none, w)
    | .queue _ =>
      let (found, commands) := w.commands.next
      (.envelope found, { w with commands })
  | .reply text =>
    match Reply.parse? (text w.nextCommand) with
    | none => (.malformedReply, w)
    | some reply =>
      match w.namedCommand? reply.id with
      | some id => (.flag true, (w.answerCommand id (.outcome reply.outcome)).2)
      | none => (.flag false, w)
  | .unreadable e => (.unreadable e, w)

end Workspace

end MathCanvas
