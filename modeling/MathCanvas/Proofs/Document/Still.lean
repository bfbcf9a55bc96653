import MathCanvas.Proofs.Document.Run
import MathCanvas.Proofs.Scope.Sequence
import MathCanvas.Proofs.Workspace.Definitions

/-!
# Tasks that leave the definitions where they are

While an edit of a document is performed, definitions come, go, move or change hands by few tasks
(`Task.arranges`). All others are *still*: they leave every cell in its scope, at its position and
with its outputs, they leave every sequence of definitions as it is, and set off only tasks that are
still again (`Workspace.perform_abides`). Sweeping takes away no more than cells that nobody holds,
and scopes (`Workspace.retains_sweep`).
-/

namespace MathCanvas

/-- Whether an operation makes a cell, changes where or what it is, or lets go of it. -/
def Op.arranges : Op → Bool
  | .newCell .. | .setScope .. | .setExpression .. | .setPosition .. | .dropCell _ => true
  | _ => false

def CellTask.arranges : CellTask → Bool
  | .enter _ | .synchronize | .addOutput .. | .keepOutput .. => true
  | _ => false

/-- Whether definitions come, go, move or change hands by a task. -/
def Task.arranges : Task → Bool
  | .operate op => op.arranges
  | .moveDefinition .. | .removeDefinition .. => true
  | .cell _ task => task.arranges
  | _ => false

/-- All of the tasks leave the definitions where they are. -/
def Still (tasks : List Task) : Prop := ∀ task ∈ tasks, task.arranges = false

section Still

variable {task : Task} {tasks more : List Task}

@[simp] theorem still_nil : Still [] := by simp [Still]

@[simp] theorem still_cons : Still (task :: tasks) ↔ task.arranges = false ∧ Still tasks :=
  List.forall_mem_cons

@[simp] theorem still_append : Still (tasks ++ more) ↔ Still tasks ∧ Still more :=
  List.forall_mem_append

@[simp] theorem still_map {α : Type} {f : α → Task} {l : List α} :
    Still (l.map f) ↔ ∀ x ∈ l, (f x).arranges = false := List.forall_mem_map

theorem still_cancelTasks (active : Option CommandId) : Still (Workspace.cancelTasks active) := by
  simp [Workspace.cancelTasks, Task.arranges]

theorem Op.Answers.arranges {op : Op} (h : op.Answers) : op.arranges = false := by
  cases op <;> first | rfl | exact h.elim

theorem still_iff_filter : Still tasks ↔ tasks.filter Task.arranges = [] := by
  simp [Still]

end Still

/-- Where a cell is, and the definitions that it has. -/
def Cell.seat (cell : Cell) : Option ScopeId × Position × Std.TreeMap String CellOutput :=
  (cell.scope, cell.position, cell.outputs)

theorem Cell.seat_begin (cell : Cell) (unset : CellInput → Bool) :
    (cell.begin unset).2.seat = cell.seat := by
  unfold Cell.begin
  simp only
  split
  · rfl
  split
  · rfl
  · rfl
  split <;> rfl

theorem Cell.seat_resumed (cell : Cell) (outer : Bool) : (cell.resumed outer).2.seat = cell.seat := by
  unfold Cell.resumed
  split <;> rfl

namespace Workspace

variable {w w' w'' : Workspace} {c : CellId} {cell cell' : Cell} {tasks : List Task}

/-- Cells that are held stay where they are, and so do the definitions in scopes that stay. -/
structure Retains (w w' : Workspace) : Prop where
  cell : ∀ {c : CellId} {cell' : Cell}, w'.cell? c = some cell' →
    ∃ cell, w.cell? c = some cell ∧ cell'.seat = cell.seat
  held : ∀ {c : CellId} {cell : Cell}, c ∈ w.heldCells → w.cell? c = some cell →
    ∃ cell', w'.cell? c = some cell'
  heldCells : w'.heldCells = w.heldCells
  nextCell : w'.nextCell = w.nextCell
  evolves : w.tree.Evolves Bindings.SameSequences w'.tree

namespace Retains

theorem refl (h : w.tree.Consistent) : w.Retains w :=
  ⟨fun hcell => ⟨_, hcell, rfl⟩, fun _ hcell => ⟨_, hcell⟩, rfl, rfl,
    .refl indifferent_sameSequences h⟩

theorem trans (h : w.Retains w') (h' : w'.Retains w'') : w.Retains w'' where
  cell hcell := by
    obtain ⟨between, hbetween, hseat⟩ := h'.cell hcell
    obtain ⟨cell, hcell, hseat'⟩ := h.cell hbetween
    exact ⟨cell, hcell, hseat.trans hseat'⟩
  held hheld hcell := by
    obtain ⟨between, hbetween⟩ := h.held hheld hcell
    exact h'.held (h.heldCells ▸ hheld) hbetween
  heldCells := h'.heldCells.trans h.heldCells
  nextCell := h'.nextCell.trans h.nextCell
  evolves := h.evolves.trans indifferent_sameSequences h'.evolves

/-- The rest of the workspace does not matter. -/
theorem of_same (h : w.Retains w') (hcells : w''.cells = w'.cells) (htree : w''.tree = w'.tree)
    (hheld : w''.heldCells = w'.heldCells) (hnext : w''.nextCell = w'.nextCell) : w.Retains w'' where
  cell hcell := h.cell (by rw [cell?, hcells] at hcell; exact hcell)
  held hc hcell := by
    rw [cell?, hcells]
    exact h.held hc hcell
  heldCells := hheld.trans h.heldCells
  nextCell := hnext.trans h.nextCell
  evolves := htree ▸ h.evolves

end Retains

theorem retains_of_same (h : w'.tree.Consistent) (hcells : w'.cells = w.cells)
    (htree : w'.tree = w.tree) (hheld : w'.heldCells = w.heldCells) (hnext : w'.nextCell = w.nextCell) :
    w.Retains w' :=
  (Retains.refl (htree ▸ h)).of_same hcells htree hheld hnext

/-- Sweeping takes away cells that nobody holds, and scopes. -/
theorem retains_sweep (h : w.tree.Consistent) : w.Retains w.sweep := by
  have htree := evolves_sweep indifferent_sameSequences h
  have hheld : ∀ {c cell}, c ∈ w.heldCells → w.cell? c = some cell →
      w.sweep.cell? c = some cell := cell?_sweep_of_held
  obtain ⟨cells, tree, heq, hcells⟩ := w.exists_sweep_eq
  rw [heq] at htree hheld ⊢
  exact ⟨fun hcell => ⟨_, hcells hcell, rfl⟩, fun hc hcell => ⟨_, hheld hc hcell⟩, rfl, rfl, htree⟩

/-! ### Still tasks -/

/-- Nothing is moved, and what is set off moves nothing. -/
structure Abides (w w' : Workspace) : Prop extends Retains w w' where
  agenda : ∃ tasks, w'.agenda = tasks ++ w.agenda ∧ Still tasks

namespace Abides

theorem refl (h : w.tree.Consistent) : w.Abides w :=
  { Retains.refl h with agenda := ⟨[], rfl, still_nil⟩ }

theorem of_same (h : w.Abides w') (hcells : w''.cells = w'.cells) (htree : w''.tree = w'.tree)
    (hheld : w''.heldCells = w'.heldCells) (hnext : w''.nextCell = w'.nextCell)
    (hagenda : w''.agenda = w'.agenda) : w.Abides w'' :=
  { h.toRetains.of_same hcells htree hheld hnext with agenda := hagenda ▸ h.agenda }

theorem withTree (h : w.Abides w') {tree : ScopeTree}
    (htree : w'.tree.Evolves Bindings.SameSequences tree) :
    w.Abides ({ w' with tree } : Workspace) :=
  { h with evolves := h.evolves.trans indifferent_sameSequences htree }

theorem push (h : w.Abides w') (htasks : Still tasks) : w.Abides (w'.push tasks) :=
  { h with
    agenda := by
      obtain ⟨earlier, hagenda, hearlier⟩ := h.agenda
      refine ⟨tasks ++ earlier, ?_, still_append.mpr ⟨htasks, hearlier⟩⟩
      rw [Workspace.push, hagenda, List.append_assoc] }

/-- A cell takes another form, but keeps its seat. -/
theorem putCell (h : w.Abides w') (hcell : w.cell? c = some cell) (hseat : cell'.seat = cell.seat) :
    w.Abides (w'.putCell c cell') :=
  { h with
    cell := fun {c₁ found} hfound => by
      rw [cell?, Workspace.putCell, lookup_insert] at hfound
      split at hfound
      · rename_i heq
        cases hfound
        exact ⟨cell, heq ▸ hcell, hseat⟩
      · exact h.cell hfound
    held := fun {c₁ before} hc hbefore => by
      rw [cell?, Workspace.putCell, lookup_insert]
      split
      · exact ⟨_, rfl⟩
      · exact h.held hc hbefore }

/-! ### The parts of a task -/

theorem spread (h : w.Abides w') (s : ScopeId) {result : List ReaderId × ScopeTree}
    (hresult : w'.tree.Evolves Bindings.SameSequences result.2) : w.Abides (w'.spread s result) :=
  (h.withTree hresult).push (by simp [noticeTasks, Task.arranges])

theorem write (h : w.Abides w') (s : ScopeId) (id : SlotId) (v : SlotValue) :
    w.Abides (w'.write s id v) := by
  have hwrite := h.withTree (ScopeTree.evolves_write h.evolves.consistent s id v)
  unfold Workspace.write
  simp only
  split
  · exact hwrite.push (by simp [Task.arranges])
  · exact hwrite

/-- There are no subscriptions to be called. -/
theorem tell (hclosed : w.Closed) (hconsistent : w.tree.Consistent) (l : Listener) (v : SlotValue) :
    w.Abides (w.tell v l) := by
  have h := Abides.refl hconsistent
  unfold Workspace.tell
  split
  · split
    · exact h.spread _ (ScopeTree.evolves_setImported indifferent_sameSequences hconsistent _ _ _)
    · exact h
  · split
    · exact h
    rename_i cell hcell
    split
    · exact h
    split
    · exact h
    simp only
    split
    · exact h.putCell hcell rfl
    · refine (h.putCell hcell ?_).push ?_
      · rfl
      · simp [Task.arranges, CellTask.arranges]
  · rw [hclosed.subscriptions]
    exact h

theorem dispatch (hclosed : w.Closed) (hconsistent : w.tree.Consistent) (hcell : w.cell? c = some cell)
    (e : Expr) : w.Abides (w.dispatch c cell e) := by
  unfold Workspace.dispatch
  refine push ?_ ?_
  · have hput : w.Abides (w.putCell c
        { cell with active := some w.nextCommand, status := .evaluating }) :=
      (Abides.refl hconsistent).putCell hcell rfl
    exact hput.of_same rfl rfl rfl rfl rfl
  · rw [still_map]
    exact fun op hop => (hclosed.answering.onDispatch _ _ op hop).arranges

theorem advance (hclosed : w.Closed) (hconsistent : w.tree.Consistent) (hcell : w.cell? c = some cell)
    (generation : Nat) : w.Abides (w.advance c cell generation) := by
  have h := Abides.refl hconsistent
  unfold Workspace.advance
  split
  · exact h
  split
  · exact h
  split
  · exact h.putCell hcell rfl
  · exact dispatch hclosed hconsistent hcell _
  · refine (h.putCell hcell ?_).push ?_
    · rfl
    · simp [Task.arranges, CellTask.arranges]

theorem receive (h : w.Abides w') (hcells : w'.cells = w.cells) (id : CommandId) (c : CellId)
    (outcome : Outcome) : w.Abides (w'.receive id c outcome) := by
  unfold Workspace.receive
  split
  · exact h
  rename_i cell hfound
  have hcell : w.cell? c = some cell := by
    rw [cell?, ← hcells]
    exact hfound
  split
  · exact h
  simp only
  split
  · exact h.putCell hcell rfl
  split
  · exact h.putCell hcell rfl
  · refine (h.putCell hcell ?_).push ?_
    · rfl
    · simp [Task.arranges, CellTask.arranges]

theorem performCell (hclosed : w.Closed) (hconsistent : w.tree.Consistent)
    (hcell : w.cell? c = some cell) {task : CellTask} (htask : task.arranges = false) :
    w.Abides (w.performCell c cell task) := by
  have h := Abides.refl hconsistent
  cases task with
  | enter scope | synchronize | addOutput s name p | keepOutput s name slot => cases htask
  | refresh => exact h.push (by simp [Task.arranges, CellTask.arranges])
  | invalidate =>
    refine (h.putCell hcell ?_).push ?_
    · rfl
    · simp [still_cancelTasks, Task.arranges]
  | reconsider =>
    unfold Workspace.performCell
    simp only
    split
    · exact h.push (by simp [Task.arranges, CellTask.arranges])
    · exact h.putCell hcell rfl
  | evaluate =>
    exact (h.putCell hcell (cell.seat_begin _)).push (by simp [Task.arranges, CellTask.arranges])
  | advance generation => exact advance hclosed hconsistent hcell generation
  | addInput s name p =>
    unfold Workspace.performCell
    simp only
    split
    · exact h
    split
    · exact h
    · rename_i hadd
      have hadded := ScopeTree.evolves_addReader indifferent_sameSequences hconsistent hadd
      refine (h.withTree ?_).putCell hcell ?_
      · exact hadded.modify_same fun _ => rfl
      · rfl
  | endBatch outer always =>
    refine (h.putCell hcell (cell.seat_resumed outer)).push ?_
    split <;> simp [Task.arranges, CellTask.arranges]

theorem onHeldCell (hconsistent : w.tree.Consistent) {f : Cell → Workspace}
    (hf : ∀ cell, w.cell? c = some cell → w.Abides (f cell)) : w.Abides (w.onHeldCell c f) := by
  unfold Workspace.onHeldCell Workspace.onCell
  split
  · split
    · exact hf _ (by assumption)
    · exact .refl hconsistent
  · exact .refl hconsistent

theorem answerCommand (hconsistent : w.tree.Consistent) (id : CommandId) (answer : Answer) :
    w.Abides (w.answerCommand id answer).2 := by
  have h : ∀ commands, w.Abides ({ w with commands } : Workspace) :=
    fun _ => (Abides.refl hconsistent).of_same rfl rfl rfl rfl rfl
  unfold Workspace.answerCommand
  split
  · exact .refl hconsistent
  · rename_i command commands _
    cases answer with
    | outcome outcome => exact (h commands).receive rfl _ _ _
    | computed => exact (h commands).receive rfl _ _ _
    | unreadable e => exact h commands

/-- An operation of an edit other than those that arrange cells. -/
theorem operate (hconsistent : w.tree.Consistent) {op : Op} (hop : op.InDocument)
    (hstill : op.arranges = false) : w.Abides (w.operate op).2 := by
  have h := Abides.refl hconsistent
  cases op with
  | newCell | setScope | setExpression | setPosition | dropCell => cases hstill
  | setAutomatic c automatic =>
    refine onHeldCell hconsistent fun cell hcell => (h.putCell hcell ?_).push ?_
    · rfl
    · split <;> simp [Task.arranges, CellTask.arranges]
  | recalculate c =>
    exact onHeldCell hconsistent fun cell _ => h.push (by simp [Task.arranges, CellTask.arranges])
  | recalculateStale c =>
    refine onHeldCell hconsistent fun cell _ => ?_
    split
    · exact h.push (by simp [Task.arranges, CellTask.arranges])
    · exact h
  | answer command answer =>
    unfold Workspace.operate
    simp only
    split
    · exact answerCommand hconsistent _ _
    · exact h
  | next =>
    unfold Workspace.operate
    simp only
    split
    · exact h
    · exact h.of_same rfl rfl rfl rfl rfl
  | reply text =>
    unfold Workspace.operate
    simp only
    split
    · exact h
    split
    · exact answerCommand hconsistent _ _
    · exact h
  | unreadable e => exact h
  | _ => exact hop.elim

end Abides

/-- A task that is still moves nothing. -/
theorem perform_abides (hclosed : w.Closed) (hconsistent : w.tree.Consistent) {task : Task}
    (htask : task.arranges = false) (hop : ∀ op, task = .operate op → op.InDocument) :
    w.Abides (w.perform task) := by
  have h := Abides.refl hconsistent
  cases task with
  | operate op => exact .operate hconsistent (hop op rfl) htask
  | notifyReaders s readers =>
    unfold perform
    cases readers with
    | nil => exact h
    | cons reader rest =>
      simp only
      split <;> exact h.push (by simp [Task.arranges])
  | notifyDefinition s slot =>
    unfold perform
    simp only
    split
    · exact h.push (by simp [Task.arranges])
    · exact h
  | tell listener value => exact .tell hclosed hconsistent listener value
  | write s slot value => exact h.write s slot value
  | moveDefinition | removeDefinition => cases htask
  | moveReader s reader p =>
    exact h.spread s (ScopeTree.evolves_moveReader indifferent_sameSequences hconsistent _ _ _)
  | removeReader s reader =>
    exact h.spread s (ScopeTree.evolves_removeReader indifferent_sameSequences hconsistent _ _)
  | keepDefinition s slot name => exact h.of_same rfl rfl rfl rfl rfl
  | cancel id =>
    have hanswers : Still ((w.backend.onCancel id).map .operate) := by
      rw [still_map]
      exact fun op hop => (hclosed.answering.onCancel id op hop).arranges
    unfold perform
    simp only
    split
    · refine Abides.push ?_ hanswers
      exact h.of_same rfl rfl rfl rfl rfl
    · refine Abides.push ?_ hanswers
      exact h.of_same rfl rfl rfl rfl rfl
  | cell c task =>
    cases hcell : w.cell? c with
    | none =>
      rw [perform_cell_of_none hcell]
      exact h
    | some cell =>
      rw [perform_cell hcell]
      exact .performCell hclosed hconsistent hcell htask
  | releaseScope s | releaseCell c => exact h

end Workspace

end MathCanvas
