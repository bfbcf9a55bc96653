import MathCanvas.Proofs.Workspace.Definitions

/-!
# What a task does to a cell

`Workspace.Alters` lists what the record of a cell can be after a task, and
`Workspace.perform_alters` says that the list is complete. A property of cells that is kept by all
the entries of the list holds in every run.
-/

namespace MathCanvas

namespace Workspace

variable {w : Workspace} {c c' : CellId} {cell cell' : Cell} {task : Task}

/-- What becomes of a cell when a task is performed. -/
inductive Alters (w : Workspace) (c : CellId) (cell : Cell) : Task → Cell → Prop
  | same {task : Task} : Alters w c cell task cell
  /-- It takes note of a new value of an input. -/
  | told {name : String} {i : CellInput} {v : SlotValue} (input : cell.inputs[name]? = some i)
      (news : i.last.valueEq v = false) : Alters w c cell (.tell (.input c name) v)
        { cell with
          inputs := cell.inputs.insert name { i with last := v }
          dirty := cell.dirty || cell.suspended }
  | invalidate : Alters w c cell (.cell c .invalidate) cell.invalidated
  | rest (manual : cell.automatic = false) :
      Alters w c cell (.cell c .reconsider) { cell with status := cell.idleStatus }
  | evaluate : Alters w c cell (.cell c .evaluate)
      (cell.begin fun i => (w.inputValue i).isUnset).2
  | finish {plan : Plan} (plan_eq : cell.plan = some plan)
      (finished : plan.next cell.expression = .finished) :
      Alters w c cell (.cell c (.advance cell.generation))
        { cell with plan := none, status := .done }
  | send {plan : Plan} {e : Expr} (plan_eq : cell.plan = some plan)
      (request : plan.next cell.expression = .request e) :
      Alters w c cell (.cell c (.advance cell.generation))
        { cell with active := some w.nextCommand, status := .evaluating }
  | assign {plan : Plan} {target : String} {value : Expr} (plan_eq : cell.plan = some plan)
      (assigns : plan.next cell.expression = .assign target value) :
      Alters w c cell (.cell c (.advance cell.generation)) (cell.complete plan value).2
  | fail {op : Op} (e : BackendError) (active : cell.active ≠ none) :
      Alters w c cell (.operate op)
        { cell with active := none, plan := none, error := some (.backend e), status := .failed }
  | drop {op : Op} (active : cell.active ≠ none) (unplanned : cell.plan = none) :
      Alters w c cell (.operate op) { cell with active := none }
  | answer {op : Op} {plan : Plan} (value : Expr) (active : cell.active ≠ none)
      (plan_eq : cell.plan = some plan) :
      Alters w c cell (.operate op) (Cell.complete { cell with active := none } plan value).2
  | enter (scope : Option ScopeId) :
      Alters w c cell (.cell c (.enter scope)) { cell with scope, suspended := true }
  /-- Inputs and outputs that are not needed any more go. -/
  | synchronize {inputs : Std.TreeMap String CellInput} {outputs : Std.TreeMap String CellOutput}
      (input : ∀ {name : String} {i : CellInput}, inputs[name]? = some i →
        cell.inputs[name]? = some i) :
      Alters w c cell (.cell c .synchronize) { cell with inputs, outputs }
  | keepOutput {s : ScopeId} {name : String} {slot : SlotId} :
      Alters w c cell (.cell c (.keepOutput s name slot))
        { cell with outputs := cell.outputs.insert name ⟨s, slot⟩ }
  | addInput {s : ScopeId} {name : String} {p : Position} {i : CellInput}
      (missing : cell.inputs[name]? = none) :
      Alters w c cell (.cell c (.addInput s name p))
        { cell with inputs := cell.inputs.insert name i }
  | endBatch (outer always : Bool) :
      Alters w c cell (.cell c (.endBatch outer always)) (cell.resumed outer).2
  | unregister (scope : Option ScopeId) :
      Alters w c cell (.operate (.setScope c scope)) cell.unregistered
  | edit (expression : Expr) : Alters w c cell (.operate (.setExpression c expression))
      { cell with expression, suspended := true }
  | move (position : Position) : Alters w c cell (.operate (.setPosition c position))
      { cell with position, suspended := true }
  | automate (automatic : Bool) :
      Alters w c cell (.operate (.setAutomatic c automatic)) { cell with automatic }

namespace Alters

theorem of_cells {w' : Workspace} (hcell : w.cell? c = some cell) (hcells : w'.cells = w.cells)
    (hcell' : w'.cell? c = some cell') : w.Alters c cell task cell' := by
  rw [cell?, hcells] at hcell'
  cases Option.some.inj (hcell'.symm.trans hcell)
  exact .same

/-- One cell is replaced. -/
theorem of_putCell {new : Cell} (hcell : w.cell? c = some cell)
    (hself : c' = c → w.Alters c cell task new) (hcell' : (w.putCell c' new).cell? c = some cell') :
    w.Alters c cell task cell' := by
  rw [cell?, Workspace.putCell, lookup_insert] at hcell'
  split at hcell'
  · rename_i hc
    cases hcell'
    exact hself hc
  · cases Option.some.inj (hcell'.symm.trans hcell)
    exact .same

theorem receive {op : Op} (hcell : w.cell? c = some cell) {id : CommandId} {outcome : Outcome}
    (hcell' : (w.receive id c' outcome).cell? c = some cell') :
    w.Alters c cell (.operate op) cell' := by
  unfold Workspace.receive at hcell'
  split at hcell'
  · exact of_cells hcell rfl hcell'
  rename_i before hbefore
  split at hcell'
  · exact of_cells hcell rfl hcell'
  rename_i hactive
  rw [not_not] at hactive
  have hsome : before.active ≠ none := by
    rw [hactive]
    exact Option.some_ne_none id
  have hsame : c' = c → before = cell := by
    rintro rfl
    exact Option.some.inj (hbefore.symm.trans hcell)
  simp only at hcell'
  split at hcell'
  · exact of_putCell hcell (fun hc => hsame hc ▸ .fail _ hsome) hcell'
  split at hcell'
  · rename_i hplan
    exact of_putCell hcell (fun hc => hsame hc ▸ .drop hsome hplan) hcell'
  · rename_i plan hplan
    exact of_putCell hcell (fun hc => hsame hc ▸ .answer _ hsome hplan) hcell'

theorem answerCommand {op : Op} (hcell : w.cell? c = some cell) {id : CommandId} {answer : Answer}
    (hcell' : (w.answerCommand id answer).2.cell? c = some cell') :
    w.Alters c cell (.operate op) cell' := by
  unfold Workspace.answerCommand at hcell'
  rcases htake : w.commands.take id with ⟨found, commands⟩
  rw [htake] at hcell'
  have hreceive : ∀ {c' : CellId} {outcome : Outcome},
      (({ w with commands } : Workspace).receive id c' outcome).cell? c = some cell' →
        w.Alters c cell (.operate op) cell' := by
    intro c' outcome hfound
    have hpopped : ({ w with commands } : Workspace).Alters c cell (.operate op) cell' :=
      receive hcell hfound
    cases hpopped with
    | same => exact .same
    | fail e hactive => exact .fail e hactive
    | drop hactive hplan => exact .drop hactive hplan
    | answer value hactive hplan => exact .answer value hactive hplan
    | unregister scope => exact .unregister scope
    | edit expression => exact .edit expression
    | move position => exact .move position
    | automate automatic => exact .automate automatic
  cases found with
  | none => exact of_cells hcell rfl hcell'
  | some command =>
    cases answer with
    | outcome outcome => exact hreceive hcell'
    | computed => exact hreceive hcell'
    | unreadable e => exact of_cells hcell rfl hcell'

theorem setScope {scope : Option ScopeId} {new : Cell} (hcell : w.cell? c = some cell)
    (hself : c' = c → new = cell)
    (hcell' : (w.setScope c' new scope).cell? c = some cell') {given : Option ScopeId} :
    w.Alters c cell (.operate (.setScope c' given)) cell' := by
  unfold Workspace.setScope at hcell'
  split at hcell'
  · exact of_cells hcell rfl hcell'
  · refine of_putCell hcell (fun hc => ?_) hcell'
    subst hc
    rw [hself rfl]
    exact .unregister given

theorem onHeldCell {f : Cell → Workspace} (hcell : w.cell? c = some cell)
    (hf : ∀ before, w.cell? c' = some before → (f before).cell? c = some cell' →
      w.Alters c cell task cell')
    (hcell' : (w.onHeldCell c' f).cell? c = some cell') : w.Alters c cell task cell' := by
  unfold Workspace.onHeldCell Workspace.onCell at hcell'
  split at hcell'
  · split at hcell'
    · rename_i before hbefore
      exact hf before hbefore hcell'
    · exact of_cells hcell rfl hcell'
  · exact of_cells hcell rfl hcell'

theorem performCell {before : Cell} {driven : CellTask} (hcell : w.cell? c = some cell)
    (hbefore : w.cell? c' = some before)
    (hcell' : (w.performCell c' before driven).cell? c = some cell') :
    w.Alters c cell (.cell c' driven) cell' := by
  have hput : ∀ {new : Cell}, w.Alters c' before (.cell c' driven) new →
      (w.putCell c' new).cell? c = some cell' → w.Alters c cell (.cell c' driven) cell' := by
    refine fun halters hfound => of_putCell hcell (fun hc => ?_) hfound
    subst hc
    rwa [← Option.some.inj (hbefore.symm.trans hcell)]
  cases driven with
  | refresh => exact of_cells hcell rfl hcell'
  | invalidate => exact hput .invalidate hcell'
  | reconsider =>
    unfold Workspace.performCell at hcell'
    simp only at hcell'
    split at hcell'
    · exact of_cells hcell rfl hcell'
    · rename_i hmanual
      exact hput (.rest (by simpa using hmanual)) hcell'
  | evaluate => exact hput .evaluate hcell'
  | advance generation =>
    unfold Workspace.performCell Workspace.advance at hcell'
    simp only at hcell'
    split at hcell'
    · exact of_cells hcell rfl hcell'
    rename_i hgeneration
    rw [not_not] at hgeneration
    subst hgeneration
    split at hcell'
    · exact of_cells hcell rfl hcell'
    rename_i plan hplan
    split at hcell'
    · rename_i hnext
      exact hput (.finish hplan hnext) hcell'
    · rename_i e hnext
      exact hput (.send hplan hnext) hcell'
    · rename_i target value hnext
      exact hput (.assign hplan hnext) hcell'
  | enter scope => exact hput (.enter scope) hcell'
  | synchronize =>
    unfold Workspace.performCell at hcell'
    simp only at hcell'
    split at hcell'
    · exact of_cells hcell rfl hcell'
    · unfold Workspace.synchronize at hcell'
      simp only [List.partition_eq_filter_filter] at hcell'
      exact hput (.synchronize fun hi => lookup_ofList_filter hi) hcell'
  | addOutput s name p =>
    unfold Workspace.performCell at hcell'
    simp only at hcell'
    split at hcell'
    · exact of_cells hcell rfl hcell'
    split at hcell' <;> exact of_cells hcell rfl hcell'
  | keepOutput s name slot => exact hput .keepOutput hcell'
  | addInput s name p =>
    unfold Workspace.performCell at hcell'
    simp only at hcell'
    split at hcell'
    · exact of_cells hcell rfl hcell'
    rename_i hmissing
    split at hcell'
    · exact of_cells hcell rfl hcell'
    · refine hput (.addInput ?_) hcell'
      exact Option.isNone_iff_eq_none.mp (by simpa using hmissing)
  | endBatch outer always => exact hput (.endBatch outer always) hcell'

theorem cells_letGo (k : SubscriptionId) (ends : Bool) : (w.letGo k ends).cells = w.cells := by
  unfold Workspace.letGo
  split
  · rfl
  split
  · simp only
    split
    · split <;> split <;> rfl
    · rfl
  · rfl

theorem cells_subscribe (handle : HandleRef) (reaction : Nat → SlotValue → List Op) :
    (w.subscribe handle reaction).cells = w.cells := by
  unfold Workspace.subscribe
  simp only
  split <;> split <;> rfl

/-- The operations that replace a cell. -/
theorem operate {op : Op} (hcell : w.cell? c = some cell) (hmakes : ¬w.Makes c (.operate op))
    (hcell' : (w.operate op).2.cell? c = some cell') : w.Alters c cell (.operate op) cell' := by
  cases op with
  | newCell position expression scope automatic =>
    have hne : w.nextCell ≠ c := fun hc =>
      hmakes ⟨hc.symm, position, expression, scope, automatic, rfl⟩
    have hcells : ∀ (v : Workspace) (new : Cell) (scope : Option ScopeId), v.cells = w.cells →
        ((v.putCell w.nextCell new).setScope w.nextCell new scope).cell? c = w.cell? c := by
      intro v new scope hcells
      unfold Workspace.setScope
      split
      · rw [cell?, Workspace.putCell, lookup_insert, if_neg hne, hcells]
        rfl
      · rw [cell?, Workspace.push, Workspace.putCell, lookup_insert, if_neg hne, Workspace.putCell,
          lookup_insert, if_neg hne, hcells]
        rfl
    let made : Workspace :=
      { w with nextCell := w.nextCell + 1, heldCells := w.heldCells ++ [w.nextCell] }
    have hfound : w.cell? c = some cell' := (hcells made { expression, position, automatic }
      (scope.filter w.heldScopes.contains) rfl).symm.trans hcell'
    exact of_cells hcell rfl hfound
  | setScope c' scope =>
    refine onHeldCell hcell (fun before hbefore hfound => ?_) hcell'
    split at hfound
    · exact setScope hcell (fun hc => Option.some.inj ((hc ▸ hbefore).symm.trans hcell)) hfound
    · exact of_cells hcell rfl hfound
  | setExpression c' expression =>
    refine onHeldCell hcell (fun before hbefore hfound => ?_) hcell'
    refine of_putCell hcell (fun hc => ?_) hfound
    subst hc
    cases Option.some.inj (hbefore.symm.trans hcell)
    exact .edit expression
  | setPosition c' position =>
    refine onHeldCell hcell (fun before hbefore hfound => ?_) hcell'
    split at hfound
    · exact of_cells hcell rfl hfound
    · refine of_putCell hcell (fun hc => ?_) hfound
      subst hc
      cases Option.some.inj (hbefore.symm.trans hcell)
      exact .move position
  | setAutomatic c' automatic =>
    refine onHeldCell hcell (fun before hbefore hfound => ?_) hcell'
    refine of_putCell hcell (fun hc => ?_) hfound
    subst hc
    cases Option.some.inj (hbefore.symm.trans hcell)
    exact .automate automatic
  | answer command answer =>
    unfold Workspace.operate at hcell'
    simp only at hcell'
    split at hcell'
    · exact answerCommand hcell hcell'
    · exact of_cells hcell rfl hcell'
  | reply text =>
    unfold Workspace.operate at hcell'
    simp only at hcell'
    split at hcell'
    · exact of_cells hcell rfl hcell'
    · split at hcell'
      · exact answerCommand hcell hcell'
      · exact of_cells hcell rfl hcell'
  | dropScope | dropCell | ask | unreadable => exact of_cells hcell rfl hcell'
  | child parent name start closed =>
    unfold Workspace.operate at hcell'
    simp only at hcell'
    split at hcell' <;> exact of_cells hcell rfl hcell'
  | addDefinition s name p =>
    unfold Workspace.operate at hcell'
    simp only at hcell'
    split at hcell'
    · split at hcell' <;> exact of_cells hcell rfl hcell'
    · exact of_cells hcell rfl hcell'
  | addReader s name p =>
    unfold Workspace.operate at hcell'
    simp only at hcell'
    split at hcell'
    · split at hcell' <;> exact of_cells hcell rfl hcell'
    · exact of_cells hcell rfl hcell'
  | set n value =>
    unfold Workspace.operate at hcell'
    simp only at hcell'
    split at hcell'
    · exact of_cells hcell (w.write_same _ _ _).1 hcell'
    · exact of_cells hcell rfl hcell'
  | clear n =>
    unfold Workspace.operate at hcell'
    simp only at hcell'
    split at hcell'
    · exact of_cells hcell (w.write_same _ _ _).1 hcell'
    · exact of_cells hcell rfl hcell'
  | move handle p =>
    cases handle with
    | definition n | reader n =>
      unfold Workspace.operate at hcell'
      simp only at hcell'
      split at hcell' <;> exact of_cells hcell rfl hcell'
  | remove handle =>
    cases handle with
    | definition n | reader n =>
      unfold Workspace.operate at hcell'
      simp only at hcell'
      split at hcell' <;> exact of_cells hcell rfl hcell'
  | subscribe handle reaction => exact of_cells hcell (cells_subscribe handle reaction) hcell'
  | unsubscribe k => exact of_cells hcell (cells_letGo k true) hcell'
  | detach k => exact of_cells hcell (cells_letGo k false) hcell'
  | recalculate c' =>
    refine onHeldCell hcell (fun _ _ hfound => ?_) hcell'
    exact of_cells hcell rfl hfound
  | recalculateStale c' =>
    refine onHeldCell hcell (fun _ _ hfound => ?_) hcell'
    split at hfound <;> exact of_cells hcell rfl hfound
  | next =>
    unfold Workspace.operate at hcell'
    simp only at hcell'
    split at hcell' <;> exact of_cells hcell rfl hcell'

theorem tell {l : Listener} {v : SlotValue} (hcell : w.cell? c = some cell)
    (hcell' : (w.tell v l).cell? c = some cell') : w.Alters c cell (.tell l v) cell' := by
  unfold Workspace.tell at hcell'
  cases l with
  | importer s name =>
    simp only at hcell'
    split at hcell' <;> exact of_cells hcell rfl hcell'
  | input c' name =>
    simp only at hcell'
    split at hcell'
    · exact of_cells hcell rfl hcell'
    rename_i before hbefore
    split at hcell'
    · exact of_cells hcell rfl hcell'
    rename_i i hi
    split at hcell'
    · exact of_cells hcell rfl hcell'
    rename_i hnews
    have htold : c' = c → w.Alters c cell (.tell (.input c' name) v) { before with
        inputs := before.inputs.insert name { i with last := v }
        dirty := before.dirty || before.suspended } := by
      rintro rfl
      cases Option.some.inj (hbefore.symm.trans hcell)
      exact .told hi (by simpa using hnews)
    split at hcell'
    · rename_i hsuspended
      have hdirty : (before.dirty || before.suspended) = true := by
        rw [show before.suspended = true from hsuspended, Bool.or_true]
      rw [hdirty] at htold
      exact of_putCell hcell htold hcell'
    · rename_i hsuspended
      have hdirty : (before.dirty || before.suspended) = before.dirty := by
        rw [Bool.not_eq_true _ |>.mp hsuspended, Bool.or_false]
      rw [hdirty] at htold
      exact of_putCell hcell htold hcell'
  | client k =>
    simp only at hcell'
    split at hcell' <;> exact of_cells hcell rfl hcell'

end Alters

/-- A task does nothing else to a cell that stays. -/
theorem perform_alters (hcell : w.cell? c = some cell) (hmakes : ¬w.Makes c task)
    (hcell' : (w.perform task).cell? c = some cell') : w.Alters c cell task cell' := by
  have hsame : (w.perform task).cells = w.cells → w.Alters c cell task cell' :=
    fun hcells => .of_cells hcell hcells hcell'
  cases task with
  | operate op => exact .operate hcell hmakes hcell'
  | notifyReaders s readers =>
    cases readers with
    | nil => exact hsame rfl
    | cons r rest =>
      refine hsame ?_
      unfold perform
      simp only
      split <;> rfl
  | notifyDefinition s slot =>
    refine hsame ?_
    unfold perform
    simp only
    split <;> rfl
  | tell l v => exact .tell hcell hcell'
  | write s slot v => exact hsame (w.write_same s slot v).1
  | cancel id =>
    refine hsame ?_
    unfold perform
    simp only
    split <;> rfl
  | cell c' driven =>
    cases hbefore : w.cell? c' with
    | none =>
      rw [perform_cell_of_none hbefore] at hcell'
      exact .of_cells hcell rfl hcell'
    | some before =>
      rw [perform_cell hbefore] at hcell'
      exact .performCell hcell hbefore hcell'
  | moveDefinition | moveReader | removeDefinition | removeReader | keepDefinition | releaseScope
  | releaseCell => exact hsame rfl

end Workspace

end MathCanvas
