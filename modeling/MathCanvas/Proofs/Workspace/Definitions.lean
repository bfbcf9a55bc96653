import MathCanvas.Proofs.Scope.Assigned
import MathCanvas.Proofs.Workspace.Perform
import MathCanvas.Proofs.Workspace.Turn

/-!
# What a task does to definitions

Most tasks *spare* the definitions: none takes a value, and none gets an owner (`Workspace.Spares`).
The others are listed by `Workspace.Affects`: a definition is written, is going to be written with
the value of a stage, is made, or is handed over to its owner. `Workspace.perform_affects` says that
these are all.
-/

namespace MathCanvas

/-- The definition that a task hands over to its owner. -/
def Task.promised? : Task → Option (ScopeId × SlotId)
  | .keepDefinition s id _ => some (s, id)
  | .cell _ (.keepOutput s _ id) => some (s, id)
  | _ => none

/-- Whether a task gives a definition neither a value nor an owner. -/
def Task.Harmless : Task → Prop
  | .write _ _ v => v = .unset
  | .keepDefinition _ _ _ => False
  | .cell _ (.keepOutput _ _ _) => False
  | _ => True

/-- None of the tasks gives a definition a value or an owner. -/
def Harmless (tasks : List Task) : Prop := ∀ task ∈ tasks, task.Harmless

section Harmless

variable {task : Task} {tasks more : List Task}

@[simp] theorem harmless_nil : Harmless [] := by simp [Harmless]

@[simp] theorem harmless_cons : Harmless (task :: tasks) ↔ task.Harmless ∧ Harmless tasks :=
  List.forall_mem_cons

@[simp] theorem harmless_append : Harmless (tasks ++ more) ↔ Harmless tasks ∧ Harmless more :=
  List.forall_mem_append

@[simp] theorem harmless_map {α : Type} {f : α → Task} {l : List α} :
    Harmless (l.map f) ↔ ∀ x ∈ l, (f x).Harmless := List.forall_mem_map

theorem harmless_cancelTasks (active : Option CommandId) :
    Harmless (Workspace.cancelTasks active) := by
  simp [Workspace.cancelTasks, Task.Harmless]

theorem Task.Harmless.promised? (h : task.Harmless) : task.promised? = none := by
  cases task with
  | keepDefinition s id name => exact h.elim
  | cell c task =>
    cases task with
    | keepOutput s name id => exact h.elim
    | _ => rfl
  | _ => rfl

theorem Harmless.promised? (h : Harmless tasks) : tasks.filterMap Task.promised? = [] :=
  List.filterMap_eq_nil_iff.mpr fun task htask => (h task htask).promised?

end Harmless

namespace Workspace

variable {w w' w'' : Workspace} {c : CellId} {cell cell' : Cell} {tasks : List Task}
  {s : ScopeId} {id : SlotId}

/-- No definition takes a value, and none gets an owner. -/
structure Spares (w w' : Workspace) : Prop where
  subsides : w.tree.Subsides w'.tree
  definitions : w'.definitions = w.definitions
  output : ∀ {c : CellId} {cell' : Cell} {name : String} {o : CellOutput}, w'.cell? c = some cell' →
    cell'.outputs[name]? = some o → ∃ cell, w.cell? c = some cell ∧ cell.outputs[name]? = some o
  agenda : ∃ tasks, w'.agenda = tasks ++ w.agenda ∧ Harmless tasks

namespace Spares

theorem refl (h : w.tree.Consistent) : w.Spares w :=
  ⟨.refl h, rfl, fun hcell ho => ⟨_, hcell, ho⟩, [], rfl, harmless_nil⟩

/-- The rest of the workspace does not matter. -/
theorem of_same (h : w.Spares w') (htree : w''.tree = w'.tree)
    (hdefinitions : w''.definitions = w'.definitions) (hcells : w''.cells = w'.cells)
    (hagenda : w''.agenda = w'.agenda) : w.Spares w'' where
  subsides := htree ▸ h.subsides
  definitions := hdefinitions.trans h.definitions
  output hcell := h.output (by rw [cell?, hcells] at hcell; exact hcell)
  agenda := hagenda ▸ h.agenda

theorem withTree (h : w.Spares w') {tree : ScopeTree} (htree : w'.tree.Subsides tree) :
    w.Spares ({ w' with tree } : Workspace) :=
  { h with subsides := h.subsides.trans htree }

theorem push (h : w.Spares w') (htasks : Harmless tasks) : w.Spares (w'.push tasks) :=
  { h with
    agenda := by
      obtain ⟨earlier, hagenda, hearlier⟩ := h.agenda
      refine ⟨tasks ++ earlier, ?_, harmless_append.mpr ⟨htasks, hearlier⟩⟩
      rw [Workspace.push, hagenda, List.append_assoc] }

/-- A cell takes another form. It gets no outputs by that. -/
theorem putCell (h : w.Spares w')
    (houtputs : ∀ {name : String} {o : CellOutput}, cell'.outputs[name]? = some o →
      ∃ cell, w.cell? c = some cell ∧ cell.outputs[name]? = some o) :
    w.Spares (w'.putCell c cell') :=
  { h with
    output := fun {c' found name o} hfound ho => by
      rw [cell?, Workspace.putCell, lookup_insert] at hfound
      split at hfound
      · rename_i heq
        cases hfound
        exact heq ▸ houtputs ho
      · exact h.output hfound ho }

theorem putCell_same (h : w.Spares w') (hcell : w.cell? c = some cell)
    (houtputs : cell'.outputs = cell.outputs) : w.Spares (w'.putCell c cell') :=
  h.putCell fun ho => ⟨cell, hcell, houtputs ▸ ho⟩

theorem withSubscriptions (h : w.Spares w') (subscriptions : Array Subscription) :
    w.Spares ({ w' with subscriptions } : Workspace) := h.of_same rfl rfl rfl rfl

theorem record (h : w.Spares w') (e : Event) : w.Spares (w'.record e) :=
  h.of_same rfl rfl rfl rfl

/-! ### Notices -/

theorem spread (h : w.Spares w') (s : ScopeId) {result : List ReaderId × ScopeTree}
    (hresult : w'.tree.Subsides result.2) : w.Spares (w'.spread s result) :=
  (h.withTree hresult).push (by simp [noticeTasks, Task.Harmless])

theorem tell (h : w.tree.Consistent) (value : SlotValue) (l : Listener) :
    w.Spares (w.tell value l) := by
  have hrefl := refl h
  unfold Workspace.tell
  split
  · split
    · exact hrefl.spread _ (ScopeTree.subsides_setImported h _ _ _)
    · exact hrefl
  · rename_i c name
    split
    · exact hrefl
    rename_i cell hcell
    split
    · exact hrefl
    rename_i i hi
    split
    · exact hrefl
    simp only
    split
    · exact hrefl.putCell_same hcell (by rfl)
    · refine Spares.push (hrefl.putCell_same hcell ?_) (by simp [Task.Harmless])
      rfl
  · split
    · exact hrefl
    · exact ((hrefl.withSubscriptions _).record _).push (by simp [Task.Harmless])

theorem letGo (h : w.tree.Consistent) (k : SubscriptionId) (ends : Bool) :
    w.Spares (w.letGo k ends) := by
  have hrefl := refl h
  unfold Workspace.letGo
  split
  · exact hrefl
  rename_i sub hsub
  split
  · have hgone := hrefl.withSubscriptions (w.subscriptions.set! k { sub with held := false })
    simp only
    split
    · split
      · split
        · exact hgone.withTree ((ScopeTree.Subsides.refl h).modify_same fun _ => rfl)
        · exact hgone
      · split
        · exact hgone.withTree ((ScopeTree.Subsides.refl h).modify_same fun _ => rfl)
        · exact hgone
    · exact hgone
  · exact hrefl

theorem subscribe (h : w.tree.Consistent) (handle : HandleRef)
    (reaction : Nat → SlotValue → List Op) : w.Spares (w.subscribe handle reaction) := by
  have hsub := (refl h).withSubscriptions (w.subscriptions.push { handle, reaction })
  unfold Workspace.subscribe
  simp only
  split
  · split
    · exact hsub.withTree ((ScopeTree.Subsides.refl h).modify_same fun _ => rfl)
    · exact hsub
  · split
    · exact hsub.withTree ((ScopeTree.Subsides.refl h).modify_same fun _ => rfl)
    · exact hsub

/-! ### Cells at work -/

theorem dispatch (h : w.tree.Consistent) (hcell : w.cell? c = some cell) (e : Expr) :
    w.Spares (w.dispatch c cell e) := by
  have hput : w.Spares (w.putCell c { cell with
      active := some w.nextCommand, status := .evaluating }) := (refl h).putCell_same hcell (by rfl)
  unfold Workspace.dispatch
  have hsent : w.Spares
      { w.putCell c { cell with active := some w.nextCommand, status := .evaluating } with
        nextCommand := w.nextCommand + 1
        commands := w.commands.dispatch w.nextCommand ⟨c, w.definedInputs cell, e⟩ } :=
    hput.of_same rfl rfl rfl rfl
  exact (hsent.record _).push (by simp [Task.Harmless])

theorem synchronize (h : w.Spares w') (hcell : w.cell? c = some cell) (s : ScopeId) :
    w.Spares (w'.synchronize c cell s) := by
  unfold Workspace.synchronize
  simp only [List.partition_eq_filter_filter]
  refine Spares.push (h.putCell fun ho => ⟨cell, hcell, lookup_ofList_filter ho⟩) ?_
  simp [Task.Harmless]

theorem batch (h : w.Spares w') (hcell : w.cell? c = some cell)
    (houtputs : cell'.outputs = cell.outputs) (always : Bool) :
    w.Spares (w'.batch c cell' always) := by
  refine (h.putCell_same hcell ?_).push (by simp [Task.Harmless])
  exact houtputs

theorem setScope (h : w.Spares w') (cell : Cell) (scope : Option ScopeId) :
    w.Spares (w'.setScope c cell scope) := by
  unfold Workspace.setScope
  split
  · exact h
  · refine (h.putCell fun ho => ?_).push ?_
    · simp [Cell.unregistered] at ho
    · simp [harmless_cancelTasks, Task.Harmless]

end Spares

/-! ### The other tasks -/

/-- A write changes nothing but the tree, and sets off notices only. -/
theorem write_same (w : Workspace) (s : ScopeId) (id : SlotId) (v : SlotValue) :
    (w.write s id v).cells = w.cells ∧ (w.write s id v).definitions = w.definitions ∧
      (w.write s id v).tree = (w.tree.write s id v).2.2 ∧
      ∃ tasks, (w.write s id v).agenda = tasks ++ w.agenda ∧ Harmless tasks := by
  unfold Workspace.write
  simp only
  split
  · exact ⟨rfl, rfl, rfl, _, rfl, by simp [Task.Harmless]⟩
  · exact ⟨rfl, rfl, rfl, [], rfl, harmless_nil⟩

/-- What a task does to the definitions and to those who own them. -/
inductive Affects (w : Workspace) : Task → Workspace → Prop
  | spare {task : Task} {w' : Workspace} (h : w.Spares w') : Affects w task w'
  /-- A definition of the client's, or one that was going to be written. -/
  | write {task : Task} {s : ScopeId} {id : SlotId} (v : SlotValue)
      (h : task = .write s id v ∨ ∃ handle ∈ w.definitions, handle.scope = s ∧ handle.slot = id) :
      Affects w task (w.write s id v)
  /-- The value of a stage is going to be written, and the plan of the cell goes on. -/
  | complete {task : Task} {w' : Workspace} {c : CellId} {cell cell' : Cell} {name : String}
      {o : CellOutput} (v : SlotValue) (h : w.Spares w') (hcell : w.cell? c = some cell)
      (hcell' : w'.cell? c = some cell') (moved : cell'.plan ≠ cell.plan)
      (houtput : cell.outputs[name]? = some o) :
      Affects w task (w'.push [.write o.scope o.slot v])
  /-- A definition is made. It has no value yet, and is handed over soon. -/
  | promise {task keep : Task} {tree : ScopeTree} {s : ScopeId} {id : SlotId}
      {readers : List ReaderId} {more : List Task} (subsides : w.tree.Subsides tree)
      (unassigned : ¬tree.Assigned s id)
      (fresh : ∃ scope, w.tree.get? s = some scope ∧ scope.bindings.nextId ≤ id)
      (promised : keep.promised? = some (s, id)) (harmless : Harmless more) :
      Affects w task (({ w with tree } : Workspace).push (.notifyReaders s readers :: keep :: more))
  /-- The client gets a definition. -/
  | keepDefinition (s : ScopeId) (id : SlotId) (name : String) :
      Affects w (.keepDefinition s id name)
        { w with definitions := w.definitions.push ⟨s, id, name⟩ }
  /-- A cell gets a definition. -/
  | keepOutput {c : CellId} {cell : Cell} (s : ScopeId) (name : String) (id : SlotId)
      (hcell : w.cell? c = some cell) :
      Affects w (.cell c (.keepOutput s name id))
        (w.putCell c { cell with outputs := cell.outputs.insert name ⟨s, id⟩ })

/-- A stage that is done is taken from the plan. -/
theorem plan_complete_ne {plan : Plan} (hplan : cell.plan = some plan)
    {v : Expr} {o : CellOutput} (houtput : (cell.complete plan v).1 = some o) :
    (cell.complete plan v).2.plan ≠ cell.plan := by
  intro heq
  rw [hplan] at heq
  have hplan' : (plan.complete cell.expression v).2.2 = plan := Option.some.inj heq
  have htarget : (plan.complete cell.expression v).1 ≠ none := by
    intro hnone
    have hbind : (plan.complete cell.expression v).1.bind (cell.outputs[·]?) = some o := houtput
    rw [hnone] at hbind
    cases hbind
  unfold Plan.complete at hplan' htarget
  cases hstages : plan.stages with
  | nil => simp [hstages] at htarget
  | cons stage rest =>
    rw [hstages] at hplan'
    have hlength : rest.length = plan.stages.length := by
      simp only at hplan'
      split at hplan' <;> rw [← hplan']
    rw [hstages, List.length_cons] at hlength
    omega

/-- The value of a stage is recorded. -/
theorem complete_affects {task : Task} (h : w.Spares w') (hcell : w.cell? c = some cell)
    {plan : Plan} (hplan : cell.plan = some plan) {cell₀ : Cell} (hplan₀ : cell₀.plan = cell.plan)
    (houtputs : cell₀.outputs = cell.outputs) (value : Expr) {more : List Task}
    (hmore : Harmless more) :
    w.Affects task ((w'.putCell c (cell₀.complete plan value).2).push <|
      (cell₀.complete plan value).1.toList.map (fun o => Task.write o.scope o.slot (.defined value))
        ++ more) := by
  have hput : w.Spares ((w'.putCell c (cell₀.complete plan value).2).push more) := by
    refine (h.putCell_same hcell ?_).push hmore
    exact houtputs
  cases hcomplete : (cell₀.complete plan value).1 with
  | none =>
    refine .spare ?_
    exact hput
  | some o =>
    obtain ⟨name, -, hname⟩ := Option.bind_eq_some_iff.mp
      (hcomplete : (plan.complete cell₀.expression value).1.bind (cell₀.outputs[·]?) = some o)
    have hmoved := plan_complete_ne (hplan₀.trans hplan) hcomplete
    rw [hplan₀] at hmoved
    exact .complete (.defined value) hput hcell (cell?_putCell _ _ _) hmoved (houtputs ▸ hname)

theorem advance_affects {task : Task} (h : w.tree.Consistent) (hcell : w.cell? c = some cell)
    (generation : Nat) : w.Affects task (w.advance c cell generation) := by
  have hrefl := Spares.refl h
  unfold Workspace.advance
  split
  · exact .spare hrefl
  split
  · exact .spare hrefl
  rename_i plan hplan
  split
  · exact .spare (hrefl.putCell_same hcell (by rfl))
  · exact .spare (.dispatch h hcell _)
  · exact complete_affects hrefl hcell hplan rfl rfl _ (by simp [Task.Harmless])

theorem receive_affects {task : Task} (h : w.Spares w') (hcells : w'.cells = w.cells)
    (command : CommandId) (c : CellId) (outcome : Outcome) :
    w.Affects task (w'.receive command c outcome) := by
  unfold Workspace.receive
  split
  · exact .spare h
  rename_i cell hcell
  rw [cell?, hcells] at hcell
  split
  · exact .spare h
  simp only
  split
  · exact .spare (h.putCell_same hcell (by rfl))
  · split
    · exact .spare (h.putCell_same hcell (by rfl))
    · rename_i plan hplan
      have hrest : Harmless [.cell c (.advance cell.generation), .releaseCell c] := by
        simp [Task.Harmless]
      have hplan₀ : Cell.plan { cell with active := none } = cell.plan := by rfl
      refine complete_affects h hcell hplan hplan₀ ?_ _ hrest
      rfl

theorem answerCommand_affects {task : Task} (h : w.tree.Consistent) (command : CommandId)
    (answer : Answer) : w.Affects task (w.answerCommand command answer).2 := by
  have hcommands : ∀ commands, w.Spares ({ w with commands } : Workspace) :=
    fun _ => (Spares.refl h).of_same rfl rfl rfl rfl
  unfold Workspace.answerCommand
  rcases w.commands.take command with ⟨found, commands⟩
  cases found with
  | none => exact .spare (.refl h)
  | some found =>
    cases answer with
    | outcome outcome => exact receive_affects (hcommands commands) rfl _ _ _
    | computed => exact receive_affects (hcommands commands) rfl _ _ _
    | unreadable e => exact .spare (hcommands commands)

theorem onHeldCell_spares {f : Cell → Workspace} (h : w.tree.Consistent)
    (hf : ∀ cell, w.cell? c = some cell → w.Spares (f cell)) : w.Spares (w.onHeldCell c f) := by
  unfold onHeldCell onCell
  split
  · split
    · rename_i cell hcell
      exact hf cell hcell
    · exact .refl h
  · exact .refl h

theorem operate_affects (h : w.tree.Consistent) (op : Op) :
    w.Affects (.operate op) (w.operate op).2 := by
  have hrefl := Spares.refl h
  cases op with
  | child parent name start closed =>
    refine .spare ?_
    unfold operate
    simp only
    split
    · exact (hrefl.withTree (ScopeTree.subsides_child h parent name start closed)).of_same
        rfl rfl rfl rfl
    · exact hrefl
  | dropScope s => exact .spare (hrefl.of_same rfl rfl rfl rfl)
  | addDefinition s name p =>
    unfold operate
    simp only
    split
    · split
      · rename_i slot readers tree hadd
        obtain ⟨hsubsides, hunassigned, hfresh⟩ := ScopeTree.subsides_addDefinition h hadd
        exact .promise hsubsides hunassigned hfresh rfl (by simp [Task.Harmless])
      · exact .spare hrefl
    · exact .spare hrefl
  | addReader s name p =>
    refine .spare ?_
    unfold operate
    simp only
    split
    · split
      · rename_i reader readers tree hadd
        exact (hrefl.withTree (ScopeTree.subsides_addReader h hadd)).of_same rfl rfl rfl rfl
      · exact hrefl
    · exact hrefl
  | set n value =>
    unfold operate
    simp only
    split
    · rename_i handle hhandle
      exact .write _ (.inr ⟨handle, Array.mem_of_getElem? hhandle, rfl, rfl⟩)
    · exact .spare hrefl
  | clear n =>
    unfold operate
    simp only
    split
    · rename_i handle hhandle
      exact .write _ (.inr ⟨handle, Array.mem_of_getElem? hhandle, rfl, rfl⟩)
    · exact .spare hrefl
  | move handle p =>
    refine .spare ?_
    cases handle with
    | definition n | reader n =>
      unfold operate
      simp only
      split
      · exact hrefl.push (by simp [Task.Harmless])
      · exact hrefl
  | remove handle =>
    refine .spare ?_
    cases handle with
    | definition n | reader n =>
      unfold operate
      simp only
      split
      · exact hrefl.push (by simp [Task.Harmless])
      · exact hrefl
  | subscribe handle reaction => exact .spare (.subscribe h handle reaction)
  | unsubscribe k => exact .spare (.letGo h k true)
  | detach k => exact .spare (.letGo h k false)
  | newCell position expression scope automatic =>
    have hcount : w.Spares ({ w with
        nextCell := w.nextCell + 1
        heldCells := w.heldCells ++ [w.nextCell] } : Workspace) := hrefl.of_same rfl rfl rfl rfl
    refine .spare (Spares.setScope (hcount.putCell fun ho => ?_) _ _)
    simp at ho
  | setScope c scope =>
    refine .spare (onHeldCell_spares h fun cell hcell => ?_)
    split
    · exact hrefl.setScope cell scope
    · exact hrefl
  | setExpression c expression =>
    refine .spare (onHeldCell_spares h fun cell hcell => ?_)
    have hpush : w.Spares (w.push [.releaseCell c]) := hrefl.push (by simp [Task.Harmless])
    exact hpush.batch hcell (by rfl) true
  | setPosition c position =>
    refine .spare (onHeldCell_spares h fun cell hcell => ?_)
    split
    · exact hrefl
    · have hpush : w.Spares (w.push [.releaseCell c]) := hrefl.push (by simp [Task.Harmless])
      exact hpush.batch hcell (by rfl) false
  | setAutomatic c automatic =>
    refine .spare (onHeldCell_spares h fun cell hcell => ?_)
    refine Spares.push (hrefl.putCell_same hcell ?_) ?_
    · rfl
    · split <;> simp [Task.Harmless]
  | recalculate c =>
    refine .spare (onHeldCell_spares h fun cell hcell => ?_)
    exact hrefl.push (by simp [Task.Harmless])
  | recalculateStale c =>
    refine .spare (onHeldCell_spares h fun cell hcell => ?_)
    split
    · exact hrefl.push (by simp [Task.Harmless])
    · exact hrefl
  | dropCell c => exact .spare (hrefl.of_same rfl rfl rfl rfl)
  | ask c name => exact .spare hrefl
  | answer command answer =>
    unfold operate
    simp only
    split
    · exact answerCommand_affects h _ _
    · exact .spare hrefl
  | next =>
    refine .spare ?_
    unfold operate
    simp only
    split
    · exact hrefl
    · exact hrefl.of_same rfl rfl rfl rfl
  | reply text =>
    unfold operate
    simp only
    split
    · exact .spare hrefl
    · split
      · exact answerCommand_affects h _ _
      · exact .spare hrefl
  | unreadable e => exact .spare hrefl

theorem performCell_affects (h : w.tree.Consistent) (hcell : w.cell? c = some cell)
    (task : CellTask) : w.Affects (.cell c task) (w.performCell c cell task) := by
  have hrefl := Spares.refl h
  cases task with
  | refresh => exact .spare (hrefl.push (by simp [Task.Harmless]))
  | invalidate =>
    refine .spare (Spares.push (hrefl.putCell_same hcell ?_) ?_)
    · rfl
    · simp [harmless_cancelTasks, Task.Harmless]
  | reconsider =>
    refine .spare ?_
    unfold Workspace.performCell
    simp only
    split
    · exact hrefl.push (by simp [Task.Harmless])
    · exact hrefl.putCell_same hcell (by rfl)
  | evaluate =>
    refine .spare (Spares.push (hrefl.putCell_same hcell ?_) ?_)
    · exact (cell.begin_same fun i => (w.inputValue i).isUnset).2
    · simp [Task.Harmless]
  | advance generation => exact advance_affects h hcell generation
  | enter scope => exact .spare (hrefl.batch hcell (by rfl) true)
  | synchronize =>
    refine .spare ?_
    unfold Workspace.performCell
    simp only
    split
    · exact hrefl
    · exact hrefl.synchronize hcell _
  | addOutput s name position =>
    unfold Workspace.performCell
    simp only
    split
    · exact .spare hrefl
    split
    · exact .spare hrefl
    · rename_i slot readers tree hadd
      obtain ⟨hsubsides, hunassigned, hfresh⟩ := ScopeTree.subsides_addDefinition h hadd
      exact .promise hsubsides hunassigned hfresh rfl harmless_nil
  | keepOutput s name slot => exact .keepOutput s name slot hcell
  | addInput s name position =>
    refine .spare ?_
    unfold Workspace.performCell
    simp only
    split
    · exact hrefl
    split
    · exact hrefl
    · rename_i reader readers tree hadd
      have hadded := ScopeTree.subsides_addReader h hadd
      have hlistened : w.tree.Subsides (tree.listenToReader s reader (.input c name)) :=
        hadded.modify_same fun _ => rfl
      exact (hrefl.withTree hlistened).putCell_same hcell (by rfl)
  | endBatch outer always =>
    refine .spare (Spares.push (hrefl.putCell_same hcell ?_) ?_)
    · exact (cell.resumed_same outer).2
    · split <;> simp [Task.Harmless]

/-- These are all the things that a task does to definitions. -/
theorem perform_affects (h : w.tree.Consistent) (task : Task) :
    w.Affects task (w.perform task) := by
  have hrefl := Spares.refl h
  cases task with
  | operate op => exact operate_affects h op
  | notifyReaders s readers =>
    refine .spare ?_
    unfold perform
    cases readers with
    | nil => exact hrefl
    | cons reader rest =>
      simp only
      split <;> exact hrefl.push (by simp [Task.Harmless])
  | notifyDefinition s slot =>
    refine .spare ?_
    unfold perform
    simp only
    split
    · exact hrefl.push (by simp [Task.Harmless])
    · exact hrefl
  | tell listener value => exact .spare (.tell h value listener)
  | write s slot value => exact .write value (.inl rfl)
  | moveDefinition s slot p =>
    exact .spare (hrefl.spread s (ScopeTree.subsides_moveDefinition h s slot p))
  | moveReader s reader p =>
    exact .spare (hrefl.spread s (ScopeTree.subsides_moveReader h s reader p))
  | removeDefinition s slot =>
    exact .spare (hrefl.spread s (ScopeTree.subsides_removeDefinition h s slot))
  | removeReader s reader =>
    exact .spare (hrefl.spread s (ScopeTree.subsides_removeReader h s reader))
  | keepDefinition s slot name => exact .keepDefinition s slot name
  | cancel id =>
    refine .spare ?_
    unfold perform
    simp only
    refine Spares.push ?_ (by simp [Task.Harmless])
    split
    · exact hrefl.record _
    · have hrecord := hrefl.record (.cancelled id)
      exact hrecord.of_same rfl rfl rfl rfl
  | cell c task =>
    cases hcell : w.cell? c with
    | none =>
      rw [perform_cell_of_none hcell]
      exact .spare hrefl
    | some cell =>
      rw [perform_cell hcell]
      exact performCell_affects h hcell task
  | releaseScope s => exact .spare hrefl
  | releaseCell c => exact .spare hrefl

/-- A definition that a task does not write keeps its value. -/
theorem holds_perform {task : Task} {v : SlotValue} (h : w.tree.Consistent)
    (hgiven : w.tree.Given s id) (hwrite : ∀ v, task ≠ .write s id v)
    (hhandle : ∀ handle ∈ w.definitions, ¬(handle.scope = s ∧ handle.slot = id))
    (hv : (w.perform task).tree.Holds s id v) : w.tree.Holds s id v := by
  have haffects := perform_affects h task
  generalize w.perform task = w' at hv haffects
  have hsubsided : ∀ {tree : ScopeTree}, w.tree.Subsides tree → tree.Holds s id v →
      w.tree.Holds s id v := fun hsubsides hv =>
    (hsubsides.definition hv).resolve_right fun hnew => hnew.2 hgiven
  cases haffects with
  | spare hspares | complete _ hspares => exact hsubsided hspares.subsides hv
  | promise hsubsides => exact hsubsided hsubsides hv
  | keepDefinition | keepOutput => exact hv
  | @write _ q x u hwritten =>
    obtain ⟨-, -, htree, -⟩ := w.write_same q x u
    rw [htree] at hv
    refine ScopeTree.holds_of_write h ?_ hv
    rintro ⟨rfl, rfl⟩
    rcases hwritten with rfl | ⟨handle, hmem, hscope, hslot⟩
    · exact hwrite u rfl
    · exact hhandle handle hmem ⟨hscope, hslot⟩

/-- A task puts others before those that are there. -/
theorem Affects.agenda {task : Task} (h : w.Affects task w') :
    ∃ tasks, w'.agenda = tasks ++ w.agenda := by
  cases h with
  | spare hspares =>
    obtain ⟨tasks, hagenda, -⟩ := hspares.agenda
    exact ⟨tasks, hagenda⟩
  | @write _ s id v _ =>
    obtain ⟨-, -, -, tasks, hagenda, -⟩ := w.write_same s id v
    exact ⟨tasks, hagenda⟩
  | @complete _ w' _ _ _ _ o v hspares _ _ _ _ =>
    obtain ⟨tasks, hagenda, -⟩ := hspares.agenda
    exact ⟨.write o.scope o.slot v :: tasks, congrArg _ hagenda⟩
  | promise => exact ⟨_, rfl⟩
  | keepDefinition | keepOutput => exact ⟨[], rfl⟩

/-- Sweeping takes scopes away, and readers with them. -/
theorem evolves_sweep {R : Bindings → Bindings → Prop} (hR : Bindings.Indifferent R)
    (h : w.tree.Consistent) : w.tree.Evolves R w.sweep.tree := by
  have hignore : ∀ (c : CellId) (inputs : List (String × CellInput)) {t : ScopeTree},
      t.Consistent → t.Evolves R (inputs.foldl (fun tree entry =>
        tree.ignoreReader entry.2.scope entry.2.reader (.input c entry.1)) t) := by
    intro c inputs t ht
    refine .foldl hR (fun t entry ht => ?_) inputs ht
    exact (ScopeTree.Evolves.refl hR ht).modify_same fun _ => rfl
  have hforget : ∀ (entries : List (CellId × Cell)) {v : Workspace}, v.tree.Consistent →
      v.tree.Evolves R (entries.foldl (fun v entry =>
        if v.refersToCell entry.1 then v else v.forgetCell entry.1 entry.2) v).tree := by
    intro entries
    induction entries with
    | nil => exact fun hv => .refl hR hv
    | cons entry rest ih =>
      intro v hv
      rw [List.foldl_cons]
      split
      · exact ih hv
      · have htree : v.tree.Evolves R (v.forgetCell entry.1 entry.2).tree :=
          hignore entry.1 entry.2.inputs.toList hv
        exact htree.trans hR (ih htree.consistent)
  have hcells := hforget w.cells.toList h
  unfold sweep
  simp only
  refine hcells.trans hR (.foldl hR (fun t s ht => ?_) _ hcells.consistent)
  split
  · exact .refl hR ht
  · exact ScopeTree.evolves_remove hR ht s

/-- Sweeping takes away only. -/
theorem spares_sweep (h : w.tree.Consistent) : w.Spares w.sweep := by
  have htree := evolves_sweep ScopeTree.indifferent_subsides h
  obtain ⟨cells, tree, heq, hcells⟩ := w.exists_sweep_eq
  rw [heq] at htree ⊢
  exact ⟨htree.subsides, rfl, fun hcell ho => ⟨_, hcells hcell, ho⟩, [], rfl, harmless_nil⟩

end Workspace

end MathCanvas
