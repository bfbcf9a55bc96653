import MathCanvas.Proofs.Workspace.Leaves

/-!
# What a task does to the run of a cell

The tasks that do something to the run of a given cell are listed once and for all by
`Workspace.Turn`, and `Workspace.perform_turn` says that these are all. What holds of every run of a
cell is proved by going through the turns.
-/

namespace MathCanvas

namespace Workspace

variable {w : Workspace} {c c' : CellId} {cell : Cell}

/-- The command that an operation answers. -/
def answered? (w : Workspace) : Op → Option CommandId
  | .answer command _ =>
    match w.backend.channel with
    | .direct => command.or w.newestCommand?
    | .queue _ => none
  | .reply text => (Reply.parse? (text w.nextCommand)).bind fun reply => w.namedCommand? reply.id
  | _ => none

/-- What a task does to the run of a cell. -/
inductive Turn (w : Workspace) (c : CellId) : Task → Workspace → Prop
  /-- Nothing. -/
  | leave {task : Task} {w' : Workspace} (idle : task.drives c = false ∨ w.cell? c = none)
      (leaves : w.Leaves c w') : Turn w c task w'
  /-- It is about to end, and afterwards another one may begin. -/
  | renew {cell : Cell} {task : Task} {next : CellTask} {more : List Task}
      (hcell : w.cell? c = some cell) (idle : task.drives c = false)
      (next_eq : next = .reconsider ∨ next = .evaluate) (more_idle : Idle c more) :
      Turn w c task (w.push (.cell c .invalidate :: .cell c next :: more))
  | invalidate {cell : Cell} (hcell : w.cell? c = some cell) :
      Turn w c (.cell c .invalidate) ((w.putCell c cell.invalidated).push
        (cancelTasks cell.active ++
          cell.outputs.values.map fun o => Task.write o.scope o.slot .unset))
  | reconsider {cell : Cell} (hcell : w.cell? c = some cell) :
      Turn w c (.cell c .reconsider) (w.push [.cell c .evaluate])
  /-- The cell does not evaluate by itself. -/
  | rest {cell : Cell} (hcell : w.cell? c = some cell) :
      Turn w c (.cell c .reconsider) (w.putCell c { cell with status := cell.idleStatus })
  | evaluate {cell : Cell} (hcell : w.cell? c = some cell) :
      Turn w c (.cell c .evaluate)
        ((w.putCell c (cell.begin fun i => (w.inputValue i).isUnset).2).push
          ((cell.begin fun i => (w.inputValue i).isUnset).1.toList.map
            fun g => .cell c (.advance g)))
  | advance {cell : Cell} {generation : Nat} (hcell : w.cell? c = some cell) :
      Turn w c (.cell c (.advance generation)) (w.advance c cell generation)
  /-- The active command is answered. -/
  | answer {op : Op} {id : CommandId} {cell : Cell} (outcome : Outcome)
      (hcell : w.cell? c = some cell) (active : cell.active = some id)
      (answers : w.answered? op = some id) :
      Turn w c (.operate op)
        (({ w with commands := w.commands.cancel id } : Workspace).receive id c outcome)
  | unregister {cell : Cell} {scope : Option ScopeId} {more : List Task}
      (hcell : w.cell? c = some cell) (more_idle : Idle c more) :
      Turn w c (.operate (.setScope c scope))
        ((w.putCell c cell.unregistered).push (cancelTasks cell.active ++ more))
  /-- The expression is another one, but the plan and the active command stay for now. -/
  | edit {cell : Cell} {expression : Expr} (hcell : w.cell? c = some cell) :
      Turn w c (.operate (.setExpression c expression))
        ((w.push [.releaseCell c]).batch c { cell with expression } true)
  /-- A stale cell begins to evaluate by itself. -/
  | awake {cell : Cell} (hcell : w.cell? c = some cell) (stale : cell.status = .stale) :
      Turn w c (.operate (.setAutomatic c true))
        ((w.putCell c { cell with automatic := true }).push [.cell c .evaluate, .releaseCell c])

theorem answerCommand_turn {op : Op} {id : CommandId} (answer : Answer)
    (hanswers : w.answered? op = some id) :
    w.Turn c (.operate op) (w.answerCommand id answer).2 := by
  have hidle : (Task.operate op).drives c = false ∨ w.cell? c = none := .inl rfl
  have hcancel : w.Leaves c ({ w with commands := w.commands.cancel id } : Workspace) :=
    (Leaves.refl w c).cancelCommand id
  have hreceive : ∀ (command : Command) (outcome : Outcome), w.Turn c (.operate op)
      (({ w with commands := w.commands.cancel id } : Workspace).receive id command.cell
        outcome) := by
    intro command outcome
    by_cases hc : command.cell = c
    · subst hc
      cases hcell : w.cell? command.cell with
      | none =>
        refine .leave hidle ?_
        unfold receive
        rw [show ({ w with commands := w.commands.cancel id } : Workspace).cell? command.cell
          = none from hcell]
        exact hcancel
      | some cell =>
        by_cases hactive : cell.active = some id
        · exact .answer outcome hcell hactive hanswers
        · refine .leave hidle ?_
          unfold receive
          rw [show ({ w with commands := w.commands.cancel id } : Workspace).cell? command.cell
            = some cell from hcell]
          simp only [ne_eq, hactive, not_false_eq_true, if_true]
          exact hcancel
    · exact .leave hidle (hcancel.receive_of_ne hc id outcome)
  unfold answerCommand
  rw [DispatchQueue.take]
  cases hfind : w.commands.find? id with
  | none => exact .leave hidle (.refl w c)
  | some command =>
    cases answer with
    | outcome outcome => exact hreceive command outcome
    | computed => exact hreceive command _
    | unreadable e => exact .leave hidle hcancel

/-- An operation on a cell of the client's: on another cell, on a cell that is not there, or on the
cell itself. -/
theorem onHeldCell_turn {op : Op} {f : Cell → Workspace}
    (hother : c' ≠ c → ∀ cell, w.Leaves c (f cell))
    (hself : c' = c → ∀ cell, w.cell? c = some cell → w.Turn c (.operate op) (f cell)) :
    w.Turn c (.operate op) (w.onHeldCell c' f) := by
  by_cases hc : c' = c
  · subst hc
    unfold onHeldCell onCell
    split
    · split
      · rename_i cell hcell
        exact hself rfl cell hcell
      · exact .leave (.inl rfl) (.refl w c')
    · exact .leave (.inl rfl) (.refl w c')
  · exact .leave (.inl rfl) (Leaves.onHeldCell_of_ne (hother hc))

/-- Whether a task makes a cell of the given number. -/
def Makes (w : Workspace) (c : CellId) (task : Task) : Prop :=
  c = w.nextCell ∧ ∃ position expression scope automatic,
    task = .operate (.newCell position expression scope automatic)

theorem operate_turn {op : Op} (hmakes : ¬w.Makes c (.operate op)) :
    w.Turn c (.operate op) (w.operate op).2 := by
  have hrefl := Leaves.refl w c
  have hleave : ∀ {w' : Workspace}, w.Leaves c w' → w.Turn c (.operate op) w' :=
    fun h => .leave (.inl rfl) h
  cases op with
  | child parent name start closed =>
    refine hleave ?_
    unfold operate
    simp only
    split
    · exact hrefl.of_same rfl rfl rfl rfl rfl
    · exact hrefl
  | dropScope s => exact hleave (hrefl.of_same rfl rfl rfl rfl rfl)
  | addDefinition s name p =>
    refine hleave ?_
    unfold operate
    simp only
    split
    · split
      · exact (hrefl.withTree _).push (by simp [Task.drives])
      · exact hrefl
    · exact hrefl
  | addReader s name p =>
    refine hleave ?_
    unfold operate
    simp only
    split
    · split
      · exact hrefl.of_same rfl rfl rfl rfl rfl
      · exact hrefl
    · exact hrefl
  | set n value =>
    refine hleave ?_
    unfold operate
    simp only
    split
    · exact hrefl.write _ _ _
    · exact hrefl
  | clear n =>
    refine hleave ?_
    unfold operate
    simp only
    split
    · exact hrefl.write _ _ _
    · exact hrefl
  | move handle p =>
    refine hleave ?_
    cases handle with
    | definition n | reader n =>
      unfold operate
      simp only
      split
      · exact hrefl.push (by simp [Task.drives])
      · exact hrefl
  | remove handle =>
    refine hleave ?_
    cases handle with
    | definition n | reader n =>
      unfold operate
      simp only
      split
      · exact hrefl.push (by simp [Task.drives])
      · exact hrefl
  | subscribe handle reaction => exact hleave (.subscribe handle reaction)
  | unsubscribe k => exact hleave (.letGo k true)
  | detach k => exact hleave (.letGo k false)
  | newCell position expression scope automatic => 
    exact hleave (.newCell (fun hc => hmakes ⟨hc.symm, _, _, _, _, rfl⟩) _ _ _ _)
  | setScope c' scope =>
    refine onHeldCell_turn (fun hne cell => ?_) fun heq cell hcell => ?_
    · split
      · exact hrefl.setScope_of_ne hne _ _
      · exact hrefl
    · subst heq
      split
      · unfold setScope
        split
        · exact hleave hrefl
        · simp only [List.append_assoc]
          exact .unregister hcell (by simp [Task.drives, CellTask.drives])
      · exact hleave hrefl
  | setExpression c' expression =>
    refine onHeldCell_turn (fun hne cell => ?_) fun heq cell hcell => ?_
    · exact (hrefl.push (by simp [Task.drives])).batch (fun heq => absurd heq hne) true
    · subst heq
      exact .edit hcell
  | setPosition c' position =>
    refine onHeldCell_turn (fun hne cell => ?_) fun heq cell hcell => hleave ?_
    · split
      · exact hrefl
      · exact (hrefl.push (by simp [Task.drives])).batch (fun heq => absurd heq hne) false
    · subst heq
      split
      · exact hrefl
      · have hmoved : c' = c' → ∃ before, w.cell? c' = some before ∧
            Cell.SameRun { cell with position } before :=
          fun _ => ⟨cell, hcell, rfl, rfl, rfl, rfl, rfl⟩
        exact (hrefl.push (by simp [Task.drives])).batch hmoved false
  | setAutomatic c' automatic =>
    refine onHeldCell_turn (fun hne cell => ?_) fun heq cell hcell => ?_
    · refine (hrefl.putCell_of_ne hne).push ?_
      split
      · simp [Task.drives, hne]
      · simp
    · subst heq
      split
      · rename_i hstale
        rw [Bool.and_eq_true, beq_iff_eq] at hstale
        obtain ⟨rfl, hstale⟩ := hstale
        exact .awake hcell hstale
      · refine hleave (Leaves.push ?_ idle_nil)
        exact hrefl.putCell_self hcell ⟨rfl, rfl, rfl, rfl, rfl⟩
  | recalculate c' =>
    refine onHeldCell_turn (fun hne cell => ?_) fun heq cell hcell => ?_
    · exact hrefl.push (by simp [Task.drives, hne])
    · subst heq
      exact .renew hcell rfl (.inr rfl) (by simp [Task.drives])
  | recalculateStale c' =>
    refine onHeldCell_turn (fun hne cell => ?_) fun heq cell hcell => ?_
    · split
      · exact hrefl.push (by simp [Task.drives, hne])
      · exact hrefl
    · subst heq
      split
      · exact .renew hcell rfl (.inr rfl) (by simp [Task.drives])
      · exact hleave hrefl
  | dropCell c' => exact hleave (hrefl.of_same rfl rfl rfl rfl rfl)
  | ask c' name => exact hleave hrefl
  | answer command answer =>
    unfold operate
    simp only
    split
    · rename_i id hchannel hid
      exact answerCommand_turn answer (by rw [answered?, hchannel]; exact hid)
    · exact hleave hrefl
  | next =>
    refine hleave ?_
    unfold operate
    simp only
    split
    · exact hrefl
    · exact { hrefl with command := fun hfind _ => hfind }
  | reply text =>
    unfold operate
    simp only
    split
    · exact hleave hrefl
    · rename_i reply hreply
      split
      · rename_i id hid
        exact answerCommand_turn _ (by rw [answered?, hreply]; exact hid)
      · exact hleave hrefl
  | unreadable e => exact hleave hrefl

theorem performCell_turn (hcell : w.cell? c = some cell) (task : CellTask) :
    w.Turn c (.cell c task) (w.performCell c cell task) := by
  cases task with
  | refresh => exact .renew hcell (by simp [Task.drives, CellTask.drives]) (.inl rfl) idle_nil
  | invalidate => exact .invalidate hcell
  | reconsider =>
    unfold performCell
    simp only
    split
    · exact .reconsider hcell
    · exact .rest hcell
  | evaluate => exact .evaluate hcell
  | advance generation => exact .advance hcell
  | enter _ | synchronize | addOutput _ _ _ | keepOutput _ _ _ | addInput _ _ _ | endBatch _ _ =>
    exact .leave (.inl (by simp [Task.drives, CellTask.drives]))
      (.performCell_self hcell rfl (by simp))

theorem perform_cell (hcell : w.cell? c = some cell) (task : CellTask) :
    w.perform (.cell c task) = w.performCell c cell task := by
  show w.onCell c (w.performCell c · task) = _
  rw [onCell, hcell]

theorem perform_cell_of_none (hcell : w.cell? c = none) (task : CellTask) :
    w.perform (.cell c task) = w := by
  show w.onCell c (w.performCell c · task) = w
  rw [onCell, hcell]

/-- These are all the turns that the run of a cell can take. -/
theorem perform_turn {task : Task} (hmakes : ¬w.Makes c task) :
    w.Turn c task (w.perform task) := by
  have hrefl := Leaves.refl w c
  have hleave : ∀ {w' : Workspace}, task.drives c = false → w.Leaves c w' → w.Turn c task w' :=
    fun hidle h => .leave (.inl hidle) h
  cases task with
  | operate op => exact operate_turn hmakes
  | notifyReaders s readers =>
    refine hleave rfl ?_
    unfold perform
    cases readers with
    | nil => exact hrefl
    | cons reader rest =>
      simp only
      split <;> exact hrefl.push (by simp [Task.drives])
  | notifyDefinition s slot =>
    refine hleave rfl ?_
    unfold perform
    simp only
    split
    · exact hrefl.push (by simp [Task.drives])
    · exact hrefl
  | tell listener value => exact hleave rfl (.tell value listener)
  | write s slot value => exact hleave rfl (hrefl.write s slot value)
  | moveDefinition s slot p => exact hleave rfl (hrefl.spread s _)
  | moveReader s reader p => exact hleave rfl (hrefl.spread s _)
  | removeDefinition s slot => exact hleave rfl (hrefl.spread s _)
  | removeReader s reader => exact hleave rfl (hrefl.spread s _)
  | keepDefinition s slot name => exact hleave rfl (hrefl.of_same rfl rfl rfl rfl rfl)
  | cancel id => exact hleave rfl (.cancel id)
  | cell c' task =>
    cases hcell : w.cell? c' with
    | none =>
      rw [perform_cell_of_none hcell]
      by_cases hc' : c' = c
      · exact .leave (.inr (hc' ▸ hcell)) hrefl
      · exact hleave (Task.drives_cell_of_ne hc' task) hrefl
    | some cell =>
      rw [perform_cell hcell]
      by_cases hc' : c' = c
      · subst hc'
        exact performCell_turn hcell task
      · exact hleave (Task.drives_cell_of_ne hc' task) (hrefl.performCell_of_ne hc' cell task)
  | releaseScope s => exact hleave rfl hrefl
  | releaseCell c' => exact hleave rfl hrefl

theorem not_makes (hc : c < w.nextCell) (task : Task) : ¬w.Makes c task :=
  fun h => Nat.lt_irrefl _ (h.1 ▸ hc)

/-- No turn makes a cell or takes back a number. -/
theorem Turn.numbered {task : Task} {w' : Workspace} (h : w.Turn c task w') :
    w.nextCell ≤ w'.nextCell ∧ (w'.cell? c ≠ none → w.cell? c ≠ none) := by
  have hpresent : ∀ {cell : Cell}, w.cell? c = some cell → w.cell? c ≠ none :=
    fun hcell => by simp [hcell]
  cases h with
  | leave hidle hleaves =>
    refine ⟨hleaves.nextCell, fun hfound => ?_⟩
    obtain ⟨cell', hcell'⟩ := Option.ne_none_iff_exists'.mp hfound
    obtain ⟨cell, hcell, -⟩ := hleaves.cell hcell'
    exact hpresent hcell
  | renew hcell | reconsider hcell | invalidate hcell | rest hcell | evaluate hcell
  | unregister hcell | edit hcell | awake hcell =>
    exact ⟨Nat.le_refl _, fun _ => hpresent hcell⟩
  | advance hcell =>
    refine ⟨?_, fun _ => hpresent hcell⟩
    unfold Workspace.advance
    split
    · exact Nat.le_refl _
    split
    · exact Nat.le_refl _
    split <;> exact Nat.le_refl _
  | answer outcome hcell =>
    refine ⟨?_, fun _ => hpresent hcell⟩
    unfold receive
    split
    · exact Nat.le_refl _
    split
    · exact Nat.le_refl _
    simp only
    split
    · exact Nat.le_refl _
    split <;> exact Nat.le_refl _

/-- A new cell has no run, and what is going to happen to it begins with a batch. -/
theorem operate_newCell (w : Workspace) (position : Position) (expression : Expr)
    (scope : Option ScopeId) (automatic : Bool) :
    let w' := (w.operate (.newCell position expression scope automatic)).2
    w'.nextCell = w.nextCell + 1 ∧ w'.commands = w.commands ∧ w'.history = w.history ∧
      ∃ cell tasks, w'.cell? w.nextCell = some cell ∧ cell.active = none ∧ cell.plan = none ∧
        cell.outputs = {} ∧ w'.agenda = tasks ++ w.agenda ∧ Idle w.nextCell tasks := by
  intro w'
  let cell : Cell := { expression, position, automatic }
  let made : Workspace :=
    { w with nextCell := w.nextCell + 1, heldCells := w.heldCells ++ [w.nextCell] }
  have hw' : w' = (made.putCell w.nextCell cell).setScope w.nextCell cell
    (scope.filter w.heldScopes.contains) := rfl
  rw [hw']
  unfold setScope
  split
  · exact ⟨rfl, rfl, rfl, cell, [], cell?_putCell _ _ _, rfl, rfl, rfl, rfl, idle_nil⟩
  · refine ⟨rfl, rfl, rfl, cell.unregistered, _, cell?_putCell _ _ _, rfl, rfl, rfl, rfl, ?_⟩
    simp [idle_cancelTasks, Task.drives, CellTask.drives]

/-- Sweeping only takes cells and scopes away. -/
theorem exists_sweep_eq (w : Workspace) : ∃ cells tree, w.sweep = { w with cells, tree } ∧
    ∀ {c : CellId} {cell : Cell}, cells[c]? = some cell → w.cell? c = some cell := by
  have hforget : ∀ (entries : List (CellId × Cell)) (v : Workspace), ∃ cells tree,
      entries.foldl (fun v entry =>
        if v.refersToCell entry.1 then v else v.forgetCell entry.1 entry.2) v
          = { v with cells, tree } ∧
      ∀ {c : CellId} {cell : Cell}, cells[c]? = some cell → v.cell? c = some cell := by
    intro entries
    induction entries with
    | nil => exact fun v => ⟨v.cells, v.tree, rfl, id⟩
    | cons entry rest ih =>
      intro v
      rw [List.foldl_cons]
      split
      · exact ih v
      · obtain ⟨cells, tree, heq, hcells⟩ := ih (v.forgetCell entry.1 entry.2)
        refine ⟨cells, tree, by rw [heq]; rfl, fun {c cell} hcell => ?_⟩
        have hlookup : (v.cells.erase entry.1)[c]? = some cell := hcells hcell
        rw [lookup_erase_eq_some_iff] at hlookup
        exact hlookup.2
  obtain ⟨cells, tree, heq, hcells⟩ := hforget w.cells.toList w
  refine ⟨cells, w.sweep.tree, ?_, hcells⟩
  unfold sweep
  simp only [heq]

/-- A cell that is held is not swept away. -/
theorem cell?_sweep_of_held (hheld : c ∈ w.heldCells) (hcell : w.cell? c = some cell) :
    w.sweep.cell? c = some cell := by
  have hforget : ∀ (entries : List (CellId × Cell)) {v : Workspace}, c ∈ v.heldCells →
      v.cell? c = some cell → (entries.foldl (fun v entry =>
        if v.refersToCell entry.1 then v else v.forgetCell entry.1 entry.2) v).cell? c
          = some cell := by
    intro entries
    induction entries with
    | nil => exact fun _ hcell => hcell
    | cons entry rest ih =>
      intro v hheld hcell
      rw [List.foldl_cons]
      split
      · exact ih hheld hcell
      · rename_i hrefers
        refine ih (v := v.forgetCell entry.1 entry.2) hheld ?_
        have hne : entry.1 ≠ c := by
          rintro rfl
          exact hrefers (by simp [refersToCell, hheld])
        have hlookup : (v.cells.erase entry.1)[c]? = v.cells[c]? := lookup_erase_of_ne _ hne
        exact hlookup.trans hcell
  exact hforget w.cells.toList hheld hcell

/-- Only cells that are referred to are there after sweeping. -/
theorem refersToCell_of_sweep (hcell : w.sweep.cell? c = some cell) : w.refersToCell c = true := by
  have hforget : ∀ (entries : List (CellId × Cell)) {v : Workspace}, (entries.foldl (fun v entry =>
      if v.refersToCell entry.1 then v else v.forgetCell entry.1 entry.2) v).cell? c = some cell →
      v.cell? c = some cell ∧ ∀ entry ∈ entries, entry.1 = c → v.refersToCell c = true := by
    intro entries
    induction entries with
    | nil => exact fun hfound => ⟨hfound, by simp⟩
    | cons entry rest ih =>
      intro v hfound
      rw [List.foldl_cons] at hfound
      split at hfound
      · rename_i hrefers
        obtain ⟨hbefore, hrest⟩ := ih hfound
        exact ⟨hbefore, List.forall_mem_cons.mpr ⟨fun heq => heq ▸ hrefers, hrest⟩⟩
      · obtain ⟨hkept, hrest⟩ := ih hfound
        have hlookup : (v.cells.erase entry.1)[c]? = some cell := hkept
        rw [lookup_erase_eq_some_iff] at hlookup
        exact ⟨hlookup.2, List.forall_mem_cons.mpr ⟨fun heq => absurd heq hlookup.1, hrest⟩⟩
  obtain ⟨hbefore, hrefers⟩ := hforget w.cells.toList hcell
  exact hrefers (c, cell) (Std.TreeMap.mem_toList_iff_getElem?_eq_some.mpr hbefore) rfl

theorem leaves_sweep (w : Workspace) (c : CellId) : w.Leaves c w.sweep := by
  obtain ⟨cells, tree, heq, hcells⟩ := w.exists_sweep_eq
  rw [heq]
  exact { Leaves.refl w c with cell := fun hcell => ⟨_, hcells hcell, .refl _⟩ }

theorem sweep_agenda (w : Workspace) : w.sweep.agenda = w.agenda := by
  obtain ⟨cells, tree, heq, -⟩ := w.exists_sweep_eq
  rw [heq]

end Workspace

end MathCanvas
