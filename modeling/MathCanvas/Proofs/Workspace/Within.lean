import MathCanvas.Proofs.Workspace.Runs

/-!
# What comes later makes no difference

A task is performed in the same way whatever else is on the agenda behind it, and whatever was
recorded before (`Workspace.perform_within`). Operations that are pending refer to nothing, so that
sweeping takes no notice of them either, and a step of a workspace within a longer course of
operations is a step of the workspace itself (`Workspace.step_within`), or begins the next operation
(`Workspace.step_within_of_quiet`).
-/

namespace MathCanvas

namespace Workspace

variable {w : Workspace} {past : List Event} {later : List Task} {c : CellId} {ops : List Op}

/-- The workspace with other events before and other tasks behind. -/
def within (w : Workspace) (past : List Event) (later : List Task) : Workspace :=
  { w with agenda := w.agenda ++ later, history := past ++ w.history }

section Fields

@[simp] theorem backend_within : (w.within past later).backend = w.backend := rfl

@[simp] theorem tree_within : (w.within past later).tree = w.tree := rfl

@[simp] theorem cells_within : (w.within past later).cells = w.cells := rfl

@[simp] theorem cell?_within : (w.within past later).cell? c = w.cell? c := rfl

@[simp] theorem commands_within : (w.within past later).commands = w.commands := rfl

@[simp] theorem heldScopes_within : (w.within past later).heldScopes = w.heldScopes := rfl

@[simp] theorem heldCells_within : (w.within past later).heldCells = w.heldCells := rfl

@[simp] theorem definitions_within : (w.within past later).definitions = w.definitions := rfl

@[simp] theorem readers_within : (w.within past later).readers = w.readers := rfl

@[simp] theorem subscriptions_within : (w.within past later).subscriptions = w.subscriptions := rfl

end Fields

/-! ### The parts of a task -/

theorem push_within (tasks : List Task) :
    (w.within past later).push tasks = (w.push tasks).within past later := by
  simp [push, within]

theorem record_within (e : Event) :
    (w.within past later).record e = (w.record e).within past later := by
  simp [record, within]

theorem putCell_within (cell : Cell) :
    (w.within past later).putCell c cell = (w.putCell c cell).within past later := rfl

theorem spread_within (s : ScopeId) (result : List ReaderId × ScopeTree) :
    (w.within past later).spread s result = (w.spread s result).within past later :=
  push_within (w := { w with tree := result.2 }) _

theorem write_within (s : ScopeId) (id : SlotId) (v : SlotValue) :
    (w.within past later).write s id v = (w.write s id v).within past later := by
  unfold write
  rw [tree_within]
  rcases w.tree.write s id v with ⟨_ | _, readers, tree⟩
  · rfl
  · exact push_within (w := { w with tree }) _

theorem batch_within (cell : Cell) (always : Bool) :
    (w.within past later).batch c cell always = (w.batch c cell always).within past later :=
  push_within (w := w.putCell c { cell with suspended := true }) _

theorem setScope_within (cell : Cell) (scope : Option ScopeId) :
    (w.within past later).setScope c cell scope = (w.setScope c cell scope).within past later := by
  unfold setScope
  split
  · rfl
  · exact push_within (w := w.putCell c cell.unregistered) _

theorem dispatch_within (cell : Cell) (e : Expr) :
    (w.within past later).dispatch c cell e = (w.dispatch c cell e).within past later := by
  simp [dispatch, push, record, within, putCell, definedInputs, inputValue]

theorem advance_within (cell : Cell) (generation : Nat) :
    (w.within past later).advance c cell generation
      = (w.advance c cell generation).within past later := by
  unfold advance
  split
  · rfl
  · split
    · rfl
    · split
      · rfl
      · exact dispatch_within ..
      · rename_i plan _ _ _ value _
        exact push_within (w := w.putCell c (cell.complete plan value).2) _

theorem receive_within (id : CommandId) (outcome : Outcome) :
    (w.within past later).receive id c outcome = (w.receive id c outcome).within past later := by
  unfold receive
  rw [cell?_within]
  cases w.cell? c with
  | none => rfl
  | some cell =>
    simp only
    split
    · rfl
    · cases outcome with
      | error e => rfl
      | ok value =>
        simp only
        split
        · rfl
        · rename_i plan _
          exact push_within (w := w.putCell c (Cell.complete { cell with active := none } plan value).2) _

theorem synchronize_within (cell : Cell) (s : ScopeId) :
    (w.within past later).synchronize c cell s = (w.synchronize c cell s).within past later := by
  unfold synchronize
  simp only [putCell_within, push_within]

theorem performCell_within (cell : Cell) (task : CellTask) :
    (w.within past later).performCell c cell task
      = (w.performCell c cell task).within past later := by
  cases task with
  | refresh => exact push_within _
  | invalidate => exact push_within (w := w.putCell c cell.invalidated) _
  | reconsider =>
    unfold performCell
    simp only
    split
    · exact push_within _
    · rfl
  | evaluate => exact push_within (w := w.putCell c (cell.begin fun i => (w.inputValue i).isUnset).2) _
  | advance generation => exact advance_within ..
  | enter scope => exact batch_within ..
  | synchronize =>
    unfold performCell
    simp only
    split
    · rfl
    · exact synchronize_within ..
  | addOutput s name position =>
    unfold performCell
    simp only
    split
    · rfl
    · rw [tree_within]
      cases w.tree.addDefinition s name position with
      | none => rfl
      | some found => exact push_within (w := { w with tree := found.2.2 }) _
  | keepOutput s name slot => rfl
  | addInput s name position =>
    unfold performCell
    simp only
    split
    · rfl
    · rw [tree_within]
      cases w.tree.addReader s name position with
      | none => rfl
      | some found => rfl
  | endBatch outer always => exact push_within (w := w.putCell c (cell.resumed outer).2) _

theorem onCell_within {f g : Cell → Workspace} (h : ∀ cell, f cell = (g cell).within past later) :
    (w.within past later).onCell c f = (w.onCell c g).within past later := by
  unfold onCell
  rw [cell?_within]
  cases w.cell? c with
  | none => rfl
  | some cell => exact h cell

theorem onHeldCell_within {f g : Cell → Workspace}
    (h : ∀ cell, f cell = (g cell).within past later) :
    (w.within past later).onHeldCell c f = (w.onHeldCell c g).within past later := by
  unfold onHeldCell
  rw [heldCells_within]
  split
  · exact onCell_within h
  · rfl

theorem tell_within (l : Listener) (v : SlotValue) :
    (w.within past later).tell v l = (w.tell v l).within past later := by
  cases l with
  | importer s name =>
    unfold tell
    simp only [tree_within]
    cases w.tree.get? s with
    | none => rfl
    | some scope => exact spread_within ..
  | input c name =>
    unfold tell
    simp only [cell?_within]
    cases w.cell? c with
    | none => rfl
    | some cell =>
      simp only
      cases cell.inputs[name]? with
      | none => rfl
      | some i =>
        simp only
        split
        · rfl
        · split
          · rfl
          · exact push_within (w := w.putCell c { cell with inputs := cell.inputs.insert name { i with last := v } }) _
  | client k =>
    unfold tell
    simp only [subscriptions_within]
    cases w.subscriptions[k]? with
    | none => rfl
    | some sub => simp only [push, record, within, List.append_assoc]

theorem letGo_within (k : SubscriptionId) (ends : Bool) :
    (w.within past later).letGo k ends = (w.letGo k ends).within past later := by
  unfold letGo
  rw [subscriptions_within]
  cases w.subscriptions[k]? with
  | none => rfl
  | some sub =>
    simp only
    split
    · split
      · split
        · rename_i n _
          simp only [definitions_within]
          cases w.definitions[n]? <;> rfl
        · rename_i n _
          simp only [readers_within]
          cases w.readers[n]? <;> rfl
      · rfl
    · rfl

theorem subscribe_within (handle : HandleRef) (reaction : Nat → SlotValue → List Op) :
    (w.within past later).subscribe handle reaction
      = (w.subscribe handle reaction).within past later := by
  cases handle with
  | definition n =>
    unfold subscribe
    simp only [definitions_within]
    cases w.definitions[n]? <;> rfl
  | reader n =>
    unfold subscribe
    simp only [readers_within]
    cases w.readers[n]? <;> rfl

theorem answerCommand_within (id : CommandId) (answer : Answer) :
    ((w.within past later).answerCommand id answer).2
      = (w.answerCommand id answer).2.within past later := by
  unfold answerCommand
  rw [commands_within]
  rcases w.commands.take id with ⟨_ | command, commands⟩
  · rfl
  · cases answer with
    | outcome outcome => exact receive_within (w := { w with commands }) ..
    | computed => exact receive_within (w := { w with commands }) ..
    | unreadable e => rfl

theorem operate_within (op : Op) :
    ((w.within past later).operate op).2 = (w.operate op).2.within past later := by
  cases op with
  | child parent name start closed =>
    show Prod.snd (if w.heldScopes.contains parent = true then _ else _) = _
    unfold operate
    simp only
    split <;> rfl
  | addDefinition s name p =>
    show Prod.snd (if w.heldScopes.contains s = true then _ else _) = _
    unfold operate
    simp only [tree_within]
    split
    · cases w.tree.addDefinition s name p with
      | none => rfl
      | some found => exact push_within (w := { w with tree := found.2.2 }) _
    · rfl
  | addReader s name p =>
    show Prod.snd (if w.heldScopes.contains s = true then _ else _) = _
    unfold operate
    simp only [tree_within]
    split
    · cases w.tree.addReader s name p <;> rfl
    · rfl
  | set n value =>
    unfold operate
    simp only [definitions_within]
    cases w.definitions[n]? with
    | none => rfl
    | some h => exact write_within ..
  | clear n =>
    unfold operate
    simp only [definitions_within]
    cases w.definitions[n]? with
    | none => rfl
    | some h => exact write_within ..
  | move handle p =>
    cases handle with
    | definition n =>
      unfold operate
      simp only [definitions_within]
      cases w.definitions[n]? with
      | none => rfl
      | some h => exact push_within _
    | reader n =>
      unfold operate
      simp only [readers_within]
      cases w.readers[n]? with
      | none => rfl
      | some h => exact push_within _
  | remove handle =>
    cases handle with
    | definition n =>
      unfold operate
      simp only [definitions_within]
      cases w.definitions[n]? with
      | none => rfl
      | some h => exact push_within _
    | reader n =>
      unfold operate
      simp only [readers_within]
      cases w.readers[n]? with
      | none => rfl
      | some h => exact push_within _
  | subscribe handle reaction => exact subscribe_within ..
  | unsubscribe k => exact letGo_within ..
  | detach k => exact letGo_within ..
  | newCell position expression scope automatic =>
    exact setScope_within (w := Workspace.putCell
      { w with nextCell := w.nextCell + 1, heldCells := w.heldCells ++ [w.nextCell] } _ _) ..
  | setScope c scope =>
    refine onHeldCell_within fun cell => ?_
    show (if scope.all w.heldScopes.contains = true then _ else _) = _
    split
    · exact setScope_within ..
    · rfl
  | setExpression c e =>
    refine onHeldCell_within fun cell => ?_
    rw [push_within, batch_within]
  | setPosition c p =>
    refine onHeldCell_within fun cell => ?_
    split
    · rfl
    · rw [push_within, batch_within]
  | setAutomatic c automatic =>
    exact onHeldCell_within fun cell => push_within (w := w.putCell c { cell with automatic }) _
  | recalculate c => exact onHeldCell_within fun cell => push_within _
  | recalculateStale c =>
    refine onHeldCell_within fun cell => ?_
    split
    · exact push_within _
    · rfl
  | answer id answer =>
    have hnewest : (w.within past later).newestCommand? = w.newestCommand? := rfl
    unfold operate
    simp only [backend_within, hnewest]
    split
    · exact answerCommand_within ..
    · rfl
  | next =>
    unfold operate
    simp only [backend_within]
    split <;> rfl
  | reply text =>
    have hnamed : ∀ name, (w.within past later).namedCommand? name = w.namedCommand? name :=
      fun _ => rfl
    have hnext : (w.within past later).nextCommand = w.nextCommand := rfl
    unfold operate
    simp only [hnext, hnamed]
    split
    · rfl
    · split
      · exact answerCommand_within ..
      · rfl
  | dropScope _ | dropCell _ | ask _ _ | unreadable _ => rfl

/-! ### Tasks -/

/-- A task is performed in the same way whatever comes later. -/
theorem perform_within (task : Task) :
    (w.within past later).perform task = (w.perform task).within past later := by
  cases task with
  | operate op => exact operate_within op
  | notifyReaders s readers =>
    cases readers with
    | nil => rfl
    | cons reader rest =>
      unfold perform
      simp only [tree_within]
      cases w.tree.readerNotice? s reader with
      | none => exact push_within _
      | some notice => exact push_within _
  | notifyDefinition s slot =>
    unfold perform
    simp only [tree_within]
    cases w.tree.definitionNotice? s slot with
    | none => rfl
    | some notice => exact push_within _
  | tell l v => exact tell_within l v
  | write s slot v => exact write_within s slot v
  | moveDefinition s slot p => exact spread_within ..
  | moveReader s reader p => exact spread_within ..
  | removeDefinition s slot => exact spread_within ..
  | removeReader s reader => exact spread_within ..
  | cancel id =>
    unfold perform
    simp only [record_within, backend_within]
    have hbackend : (w.record (.cancelled id)).backend = w.backend := rfl
    rw [hbackend]
    split
    · exact push_within _
    · exact push_within (w := { w.record (.cancelled id) with commands := w.commands.cancel id }) _
  | cell c task => exact onCell_within fun cell => performCell_within cell task
  | keepDefinition _ _ _ | releaseScope _ | releaseCell _ => rfl

/-! ### Sweeping -/

/-- Operations that are pending refer to nothing. -/
theorem keptScope?_operations : (ops.map Task.operate).filterMap Task.keptScope? = [] := by
  simp [Task.keptScope?]

theorem refersToCell_within :
    (w.within past (ops.map .operate)).refersToCell c = w.refersToCell c := by
  have hnone : (ops.map Task.operate).any (fun task => task.keptCell? == some c) = false := by
    simp [Task.keptCell?]
  simp only [refersToCell, within, List.any_append, hnone, Bool.or_false]

theorem foldl_forgetCell_within (cells : List (CellId × Cell)) :
    cells.foldl (fun w (c, cell) => if w.refersToCell c then w else w.forgetCell c cell)
      (w.within past (ops.map .operate)) =
    (cells.foldl (fun w (c, cell) => if w.refersToCell c then w else w.forgetCell c cell) w).within
      past (ops.map .operate) := by
  induction cells generalizing w with
  | nil => rfl
  | cons entry rest ih =>
    simp only [List.foldl_cons, refersToCell_within]
    split
    · exact ih
    · exact ih (w := w.forgetCell entry.1 entry.2)

/-- Sweeping takes no notice of operations that are pending. -/
theorem sweep_within :
    (w.within past (ops.map .operate)).sweep = w.sweep.within past (ops.map .operate) := by
  have hreferred : ∀ v : Workspace,
      (v.within past (ops.map .operate)).referredScopes = v.referredScopes := by
    intro v
    simp only [referredScopes, within, List.filterMap_append, keptScope?_operations, List.append_nil]
  unfold sweep
  simp only [cells_within, foldl_forgetCell_within, hreferred]
  rfl

/-! ### Steps -/

/-- The first task is performed, and operations that are pending stay so. -/
theorem step_within (hbusy : w.agenda ≠ []) :
    (w.within past (ops.map .operate)).step = w.step.within past (ops.map .operate) := by
  obtain ⟨task, rest, hagenda⟩ := List.exists_cons_of_ne_nil hbusy
  have hfirst : (w.within past (ops.map .operate)).agenda = task :: (rest ++ ops.map .operate) := by
    rw [within, hagenda, List.cons_append]
  rw [step_of_agenda hfirst, step_of_agenda hagenda, ← sweep_within, ← perform_within]
  rfl

/-- When nothing else is to be done, the next operation begins as if it was called. -/
theorem step_within_of_quiet (hquiet : w.agenda = []) (op : Op) :
    (w.within past ((op :: ops).map .operate)).step =
      (w.call op).step.within (past ++ w.history) (ops.map .operate) := by
  have hfirst : (w.within past ((op :: ops).map .operate)).agenda
      = .operate op :: ops.map .operate := by
    rw [within, hquiet]
    rfl
  rw [step_of_agenda hfirst, step_call hquiet, ← sweep_within, ← operate_within]
  simp [perform, within, hquiet]

/-- A condition on a workspace and the operations that are pending is kept until all is done, if it is
kept by steps and by the beginning of the next operation. -/
theorem exists_settle_within {P : Workspace → List Op → Prop}
    (hstep : ∀ w ops, P w ops → w.agenda ≠ [] → P w.step ops)
    (hcall : ∀ w op ops, P w (op :: ops) → w.agenda = [] → P (w.call op).step ops) (n : Nat) :
    ∀ {w : Workspace} {past : List Event} {ops : List Op}, P w ops → ∃ w' past' ops',
      (w.within past (ops.map .operate)).settle n = w'.within past' (ops'.map .operate) ∧
        P w' ops' := by
  induction n with
  | zero => exact fun {w past ops} h => ⟨w, past, ops, rfl, h⟩
  | succ n ih =>
    intro w past ops h
    cases hagenda : (w.within past (ops.map .operate)).agenda with
    | nil => exact ⟨w, past, ops, by rw [settle.eq_def]; simp only [hagenda], h⟩
    | cons task rest =>
      rw [settle_succ hagenda]
      by_cases hbusy : w.agenda = []
      · cases ops with
        | nil => simp [within, hbusy] at hagenda
        | cons op ops =>
          rw [step_within_of_quiet hbusy]
          exact ih (hcall w op ops h hbusy)
      · rw [step_within hbusy]
        exact ih (hstep w ops h hbusy)

end Workspace

end MathCanvas
