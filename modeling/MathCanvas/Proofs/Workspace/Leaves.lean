import MathCanvas.Proofs.Command.Queue
import MathCanvas.Proofs.Lookup
import MathCanvas.Workspace.Run

/-!
# What leaves the run of a cell alone

A run is known by the expression of its cell, the plan, the active command, the generation and the
status (`Cell.SameRun`). Nearly every task leaves the run of a given cell as it is, sends no command
for it and puts no task on the agenda that would take it further: `Workspace.Leaves` says so, and
there is a lemma for each of these tasks.
-/

namespace MathCanvas

/-! ### Runs of a cell -/

/-- Two cells at the same point of the same run. -/
structure Cell.SameRun (a b : Cell) : Prop where
  expression : a.expression = b.expression
  plan : a.plan = b.plan
  active : a.active = b.active
  generation : a.generation = b.generation
  status : a.status = b.status

theorem Cell.SameRun.refl (a : Cell) : a.SameRun a := ⟨rfl, rfl, rfl, rfl, rfl⟩

theorem Cell.SameRun.trans {a b d : Cell} (h : a.SameRun b) (h' : b.SameRun d) : a.SameRun d :=
  ⟨h.expression.trans h'.expression, h.plan.trans h'.plan, h.active.trans h'.active,
    h.generation.trans h'.generation, h.status.trans h'.status⟩

/-- A batch does not touch the run. -/
theorem Cell.SameRun.resumed (a : Cell) (outer : Bool) : (a.resumed outer).2.SameRun a := by
  unfold Cell.resumed
  split <;> exact ⟨rfl, rfl, rfl, rfl, rfl⟩

/-- Whether a task ends a run, begins one or goes on with one. -/
def CellTask.drives : CellTask → Bool
  | .invalidate | .reconsider | .evaluate | .advance _ => true
  | _ => false

/-- Whether a task takes part in the runs of a cell. -/
def Task.drives (c : CellId) : Task → Bool
  | .cell c' task => c' == c && task.drives
  | _ => false

theorem Task.drives_cell_of_ne {c c' : CellId} (h : c' ≠ c) (task : CellTask) :
    (Task.cell c' task).drives c = false := by
  simp [Task.drives, h]

/-- None of the tasks takes part in the runs of a cell. -/
def Idle (c : CellId) (tasks : List Task) : Prop := ∀ task ∈ tasks, task.drives c = false

section Idle

variable {c : CellId} {task : Task} {tasks more : List Task}

@[simp] theorem idle_nil : Idle c [] := by simp [Idle]

@[simp] theorem idle_cons : Idle c (task :: tasks) ↔ task.drives c = false ∧ Idle c tasks :=
  List.forall_mem_cons

@[simp] theorem idle_append : Idle c (tasks ++ more) ↔ Idle c tasks ∧ Idle c more :=
  List.forall_mem_append

@[simp] theorem idle_map {α : Type} {f : α → Task} {l : List α} :
    Idle c (l.map f) ↔ ∀ x ∈ l, (f x).drives c = false := List.forall_mem_map

theorem idle_cancelTasks (active : Option CommandId) : Idle c (Workspace.cancelTasks active) := by
  simp [Workspace.cancelTasks, Task.drives]

end Idle

namespace Workspace

variable {w w' w'' : Workspace} {c c' : CellId} {cell cell' : Cell} {tasks : List Task}

theorem cell?_putCell (w : Workspace) (c : CellId) (cell : Cell) :
    (w.putCell c cell).cell? c = some cell := lookup_insert_self _ _ _

theorem onHeldCell_of_held (hheld : c ∈ w.heldCells) (hcell : w.cell? c = some cell)
    (f : Cell → Workspace) : w.onHeldCell c f = f cell := by
  rw [onHeldCell, if_pos (by simpa using hheld), onCell, hcell]

/-! ### Leaving a run alone -/

/-- The run of a cell stays as it is: whatever else happened, the cell is at the same point of the
same run, none of the new tasks takes part in its runs, and none of its commands is new. -/
structure Leaves (w : Workspace) (c : CellId) (w' : Workspace) : Prop where
  cell : ∀ {cell' : Cell}, w'.cell? c = some cell' →
    ∃ cell, w.cell? c = some cell ∧ cell'.SameRun cell
  agenda : ∃ tasks, w'.agenda = tasks ++ w.agenda ∧ Idle c tasks
  nextCell : w.nextCell ≤ w'.nextCell
  command : ∀ {id : CommandId} {command : Command}, w'.commands.find? id = some command →
    command.cell = c → w.commands.find? id = some command
  history : ∃ more, w'.history = w.history ++ more

namespace Leaves

theorem refl (w : Workspace) (c : CellId) : w.Leaves c w where
  cell hcell := ⟨_, hcell, .refl _⟩
  agenda := ⟨[], rfl, by simp⟩
  nextCell := Nat.le_refl _
  command h _ := h
  history := ⟨[], (List.append_nil _).symm⟩

/-- The rest of the workspace does not matter. -/
theorem of_same (h : w.Leaves c w') (hcells : w''.cells = w'.cells)
    (hagenda : w''.agenda = w'.agenda) (hnext : w''.nextCell = w'.nextCell)
    (hcommands : w''.commands = w'.commands) (hhistory : w''.history = w'.history) :
    w.Leaves c w'' where
  cell hcell := h.cell (by rw [cell?, hcells] at hcell; exact hcell)
  agenda := hagenda ▸ h.agenda
  nextCell := hnext ▸ h.nextCell
  command hfind := h.command (hcommands ▸ hfind)
  history := hhistory ▸ h.history

theorem withTree (h : w.Leaves c w') (tree : ScopeTree) :
    w.Leaves c ({ w' with tree } : Workspace) := h.of_same rfl rfl rfl rfl rfl

theorem push (h : w.Leaves c w') (hidle : Idle c tasks) :
    w.Leaves c (w'.push tasks) :=
  { h with
    agenda := by
      obtain ⟨earlier, hagenda, hearlier⟩ := h.agenda
      refine ⟨tasks ++ earlier, ?_, idle_append.mpr ⟨hidle, hearlier⟩⟩
      rw [Workspace.push, hagenda, List.append_assoc] }

theorem record (h : w.Leaves c w') (e : Event) : w.Leaves c (w'.record e) :=
  { h with
    history := by
      obtain ⟨more, hmore⟩ := h.history
      exact ⟨more ++ [e], by rw [Workspace.record, hmore, List.append_assoc]⟩ }

/-- A cell is replaced, which may be the cell itself if its run is the same. -/
theorem putCell (h : w.Leaves c w')
    (hsame : c' = c → ∃ cell, w.cell? c = some cell ∧ cell'.SameRun cell) :
    w.Leaves c (w'.putCell c' cell') :=
  { h with
    cell := fun {found} hfound => by
      rw [cell?, Workspace.putCell, lookup_insert] at hfound
      split at hfound
      · rename_i heq
        cases hfound
        exact hsame heq
      · exact h.cell hfound }

theorem putCell_self (h : w.Leaves c w') (hcell : w.cell? c = some cell)
    (hsame : cell'.SameRun cell) : w.Leaves c (w'.putCell c cell') :=
  h.putCell fun _ => ⟨cell, hcell, hsame⟩

theorem putCell_of_ne (h : w.Leaves c w') (hne : c' ≠ c) : w.Leaves c (w'.putCell c' cell') :=
  h.putCell fun heq => absurd heq hne

theorem cancelCommand (h : w.Leaves c w') (id : CommandId) :
    w.Leaves c ({ w' with commands := w'.commands.cancel id } : Workspace) :=
  { h with
    command := fun {id' command} hfind hcommand => by
      rw [DispatchQueue.find?_cancel] at hfind
      split at hfind
      · cases hfind
      · exact h.command hfind hcommand }

/-- A command of another cell is sent. -/
theorem dispatch (h : w.Leaves c w') (hne : c' ≠ c) (cell : Cell) (e : Expr) :
    w.Leaves c (w'.dispatch c' cell e) := by
  unfold Workspace.dispatch
  refine Leaves.push (Leaves.record ?_ _) (by simp [Task.drives])
  have hput : w.Leaves c (w'.putCell c' { cell with
      active := some w'.nextCommand, status := .evaluating }) := h.putCell_of_ne hne
  exact { hput with
    command := fun {id command} hfind hcommand => by
      rw [DispatchQueue.find?_dispatch] at hfind
      split at hfind
      · cases hfind
        exact absurd hcommand hne
      · exact h.command hfind hcommand }

/-! ### Other cells -/

theorem advance_of_ne (h : w.Leaves c w') (hne : c' ≠ c) (cell : Cell) (generation : Nat) :
    w.Leaves c (w'.advance c' cell generation) := by
  unfold Workspace.advance
  split
  · exact h
  split
  · exact h
  split
  · exact h.putCell_of_ne hne
  · exact h.dispatch hne _ _
  · refine (h.putCell_of_ne hne).push ?_
    simp [Task.drives, hne]

theorem receive_of_ne (h : w.Leaves c w') (hne : c' ≠ c) (id : CommandId) (outcome : Outcome) :
    w.Leaves c (w'.receive id c' outcome) := by
  unfold Workspace.receive
  split
  · exact h
  split
  · exact h
  simp only
  split
  · exact h.putCell_of_ne hne
  · split
    · exact h.putCell_of_ne hne
    · refine (h.putCell_of_ne hne).push ?_
      simp [Task.drives, hne]

/-- A cell is put in place of another one, and its inputs and outputs are going to be brought in
step. -/
theorem batch (h : w.Leaves c w')
    (hsame : c' = c → ∃ before, w.cell? c = some before ∧ cell.SameRun before) (always : Bool) :
    w.Leaves c (w'.batch c' cell always) := by
  unfold Workspace.batch
  refine (h.putCell fun heq => ?_).push (by simp [Task.drives, CellTask.drives])
  obtain ⟨before, hbefore, hrun⟩ := hsame heq
  exact ⟨before, hbefore, hrun.expression, hrun.plan, hrun.active, hrun.generation, hrun.status⟩

theorem synchronize (h : w.Leaves c w')
    (hsame : c' = c → ∃ before, w.cell? c = some before ∧ cell.SameRun before) (s : ScopeId) :
    w.Leaves c (w'.synchronize c' cell s) := by
  unfold Workspace.synchronize
  refine (h.putCell fun heq => ?_).push ?_
  · obtain ⟨before, hbefore, hrun⟩ := hsame heq
    exact ⟨before, hbefore, hrun.expression, hrun.plan, hrun.active, hrun.generation, hrun.status⟩
  · simp [Task.drives, CellTask.drives]

theorem setScope_of_ne (h : w.Leaves c w') (hne : c' ≠ c) (cell : Cell) (scope : Option ScopeId) :
    w.Leaves c (w'.setScope c' cell scope) := by
  unfold Workspace.setScope
  split
  · exact h
  refine (h.putCell_of_ne hne).push ?_
  simp [Task.drives, idle_cancelTasks, hne]

theorem performCell_of_ne (h : w.Leaves c w') (hne : c' ≠ c) (cell : Cell) (task : CellTask) :
    w.Leaves c (w'.performCell c' cell task) := by
  have hidle : ∀ task, (Task.cell c' task).drives c = false := Task.drives_cell_of_ne hne
  unfold Workspace.performCell
  split
  · exact h.push (by simp [hidle])
  · refine (h.putCell_of_ne hne).push ?_
    simp [Task.drives, idle_cancelTasks]
  · split
    · exact h.push (by simp [hidle])
    · exact h.putCell_of_ne hne
  · exact (h.putCell_of_ne hne).push (by simp [hidle])
  · exact h.advance_of_ne hne _ _
  · exact h.batch (fun heq => absurd heq hne) true
  · split
    · exact h
    · exact h.synchronize (fun heq => absurd heq hne) _
  · split
    · exact h
    · split
      · exact h
      · exact (h.withTree _).push (by simp [Task.drives, CellTask.drives])
  · exact h.putCell_of_ne hne
  · split
    · exact h
    · split
      · exact h
      · exact (h.withTree _).putCell_of_ne hne
  · refine (h.putCell_of_ne hne).push ?_
    split
    · simp [hidle]
    · simp

/-- The tasks by which a cell gets inputs and outputs do not take part in its runs. -/
theorem performCell_self (hcell : w.cell? c = some cell) {task : CellTask}
    (hidle : task.drives = false) (hrefresh : task ≠ .refresh) :
    w.Leaves c (w.performCell c cell task) := by
  have h := Leaves.refl w c
  have hsame : c = c → ∃ before, w.cell? c = some before ∧ cell.SameRun before :=
    fun _ => ⟨cell, hcell, .refl cell⟩
  cases task with
  | refresh => exact absurd rfl hrefresh
  | invalidate | reconsider | evaluate | advance generation => cases hidle
  | enter scope =>
    have hentered : c = c → ∃ before, w.cell? c = some before ∧
        Cell.SameRun { cell with scope } before := fun _ => ⟨cell, hcell, rfl, rfl, rfl, rfl, rfl⟩
    exact h.batch hentered true
  | synchronize =>
    unfold Workspace.performCell
    simp only
    split
    · exact h
    · exact h.synchronize hsame _
  | addOutput s name position =>
    unfold Workspace.performCell
    simp only
    split
    · exact h
    split
    · exact h
    · exact (h.withTree _).push (by simp [Task.drives, CellTask.drives])
  | keepOutput s name slot => exact h.putCell_self hcell ⟨rfl, rfl, rfl, rfl, rfl⟩
  | addInput s name position =>
    unfold Workspace.performCell
    simp only
    split
    · exact h
    split
    · exact h
    · exact (h.withTree _).putCell_self hcell ⟨rfl, rfl, rfl, rfl, rfl⟩
  | endBatch outer always =>
    refine (h.putCell_self hcell (.resumed cell outer)).push ?_
    split
    · simp [Task.drives, CellTask.drives]
    · simp

/-! ### Notices and subscriptions -/

theorem write (h : w.Leaves c w') (s : ScopeId) (id : SlotId) (value : SlotValue) :
    w.Leaves c (w'.write s id value) := by
  unfold Workspace.write
  simp only
  split
  · exact (h.withTree _).push (by simp [Task.drives])
  · exact h.withTree _

theorem spread (h : w.Leaves c w') (s : ScopeId) (result : List ReaderId × ScopeTree) :
    w.Leaves c (w'.spread s result) :=
  (h.withTree _).push (by simp [noticeTasks, Task.drives])

theorem tell (value : SlotValue) (l : Listener) : w.Leaves c (w.tell value l) := by
  have h := Leaves.refl w c
  unfold Workspace.tell
  split
  · split
    · exact h.spread _ _
    · exact h
  · rename_i c' name
    split
    · exact h
    rename_i cell hcell
    split
    · exact h
    rename_i i hi
    split
    · exact h
    have hkept : ∀ dirty, c' = c → ∃ before, w.cell? c = some before ∧
        Cell.SameRun { cell with
          inputs := cell.inputs.insert name { i with last := value }, dirty } before := by
      rintro dirty rfl
      exact ⟨cell, hcell, rfl, rfl, rfl, rfl, rfl⟩
    simp only
    split
    · exact h.putCell (hkept true)
    · exact (h.putCell (hkept cell.dirty)).push (by simp [Task.drives, CellTask.drives])
  · split
    · exact h
    · refine Leaves.push (Leaves.record ?_ _) (by simp [Task.drives])
      exact h.of_same rfl rfl rfl rfl rfl

theorem letGo (k : SubscriptionId) (ends : Bool) : w.Leaves c (w.letGo k ends) := by
  have h := Leaves.refl w c
  unfold Workspace.letGo
  split
  · exact h
  split
  · simp only
    split
    · split
      · split <;> exact h.of_same rfl rfl rfl rfl rfl
      · split <;> exact h.of_same rfl rfl rfl rfl rfl
    · exact h.of_same rfl rfl rfl rfl rfl
  · exact h

theorem subscribe (handle : HandleRef) (reaction : Nat → SlotValue → List Op) :
    w.Leaves c (w.subscribe handle reaction) := by
  have h := Leaves.refl w c
  unfold Workspace.subscribe
  simp only
  split
  · split <;> exact h.of_same rfl rfl rfl rfl rfl
  · split <;> exact h.of_same rfl rfl rfl rfl rfl

theorem cancel (id : CommandId) : w.Leaves c (w.perform (.cancel id)) := by
  have h := Leaves.refl w c
  unfold perform
  simp only
  refine Leaves.push ?_ (by simp [Task.drives])
  split
  · exact h.record _
  · exact (h.record _).cancelCommand id

theorem newCell (hne : w.nextCell ≠ c) (position : Position) (expression : Expr)
    (scope : Option ScopeId) (automatic : Bool) :
    w.Leaves c (w.operate (.newCell position expression scope automatic)).2 := by
  refine Leaves.setScope_of_ne (Leaves.putCell_of_ne ?_ hne) hne _ _
  exact { Leaves.refl w c with nextCell := Nat.le_succ _ }

theorem onHeldCell_of_ne {f : Cell → Workspace} (hf : ∀ cell, w.Leaves c (f cell)) :
    w.Leaves c (w.onHeldCell c' f) := by
  unfold Workspace.onHeldCell Workspace.onCell
  split
  · split
    · exact hf _
    · exact .refl w c
  · exact .refl w c

end Leaves

end Workspace

end MathCanvas
