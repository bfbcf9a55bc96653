import MathCanvas.Proofs.Workspace.Ledger

/-!
# A cell rests while it is brought in step

Between the change that takes a cell out of step with its expression and the end of its batch, the
cell neither goes on with a run nor begins one, and nobody answers its command
(`Workspace.Resting`). So whenever a cell is at work, nothing is left to be done about its inputs
and outputs: it has all that its expression reads and writes
(`Workspace.Chronicle.has_iff_mem_wants`).
-/

namespace MathCanvas

/-- Whether a task is one of those by which a cell is enrolled in its scope. -/
def Task.equips (c : CellId) : Task → Bool
  | .cell c' driven => c' == c && (Task.cell c' driven).rank != .idle
  | _ => false

/-- Whether a task of a cell is not one of those. -/
def Task.works (c : CellId) : Task → Bool
  | .cell c' driven => c' == c && (Task.cell c' driven).rank == .idle
  | _ => false

variable {c c' : CellId} {task : Task} {tasks agenda rest : List Task} {driven : CellTask}

theorem Task.equips_of_idle (h : task.rank = .idle) : task.equips c = false := by
  cases task with
  | cell => simp [equips, h]
  | _ => rfl

theorem AllIdle.any_equips (h : AllIdle tasks) : tasks.any (Task.equips c) = false :=
  List.any_eq_false.mpr fun task htask => by simp [Task.equips_of_idle (h task htask)]

/-- None of the tasks is at work on a cell. -/
def Workless (c : CellId) (tasks : List Task) : Prop := ∀ task ∈ tasks, task.works c = false

section Workless

variable {more : List Task}

@[simp] theorem workless_nil : Workless c [] := by simp [Workless]

@[simp] theorem workless_cons :
    Workless c (task :: tasks) ↔ task.works c = false ∧ Workless c tasks :=
  List.forall_mem_cons

@[simp] theorem workless_append :
    Workless c (tasks ++ more) ↔ Workless c tasks ∧ Workless c more :=
  List.forall_mem_append

@[simp] theorem workless_map {α : Type} {f : α → Task} {l : List α} :
    Workless c (l.map f) ↔ ∀ x ∈ l, (f x).works c = false :=
  List.forall_mem_map

@[simp] theorem workless_cancelTasks (active : Option CommandId) :
    Workless c (Workspace.cancelTasks active) := by
  simp [Workspace.cancelTasks, Task.works]

end Workless

/-- Whether an operation sets or clears a definition. -/
def Op.Writes : Op → Prop
  | .set _ _ | .clear _ => True
  | _ => False

theorem Op.Writes.enlists {op : Op} (h : op.Writes) : op.enlists = false := by
  cases op with
  | set | clear => rfl
  | _ => exact h.elim

namespace Workspace

variable {w w' : Workspace} {cell cell' : Cell} {s : ScopeId} {op : Op} {id : CommandId}

/-- The operation writes the definition of a handle, if there is such a handle. -/
theorem operate_of_writes (h : op.Writes) : (w.operate op).2 = w ∨
    ∃ handle ∈ w.definitions, ∃ v, (w.operate op).2 = w.write handle.scope handle.slot v := by
  cases op with
  | set n value | clear n =>
    unfold operate
    simp only
    cases hn : w.definitions[n]? with
    | none => exact .inl rfl
    | some handle => exact .inr ⟨handle, Array.mem_of_getElem? hn, _, rfl⟩
  | _ => exact h.elim

theorem answering?_of_writes (h : op.Writes) : w.answering? op = none := by
  cases op with
  | set | clear => rfl
  | _ => exact h.elim

/-! ### What sets a cell to work -/

/-- What can set a cell to work. -/
inductive Rouses (w : Workspace) (c : CellId) : Task → Prop
  | own {driven : CellTask} (idle : (Task.cell c driven).rank = .idle) :
      Rouses w c (.cell c driven)
  /-- The cell enters a scope, and is going to refresh when it is in step. -/
  | enter (scope : Option ScopeId) : Rouses w c (.cell c (.enter scope))
  | told {cell : Cell} {name : String} {i : CellInput} (v : SlotValue)
      (present : w.cell? c = some cell) (input : cell.inputs[name]? = some i)
      (awake : cell.suspended = false) : Rouses w c (.tell (.input c name) v)
  | answered {cell : Cell} {op : Op} {id : CommandId} {answer : Answer}
      (present : w.cell? c = some cell) (active : cell.active = some id)
      (answers : w.answering? op = some (id, answer)) : Rouses w c (.operate op)

/-- New tasks are put on the agenda, and if they are at work on a cell, then the task that has been
performed rouses it. -/
structure RousesOnly (w : Workspace) (c : CellId) (task : Task) (w' : Workspace) : Prop where
  agenda : ∃ tasks, w'.agenda = tasks ++ w.agenda ∧ (w.Rouses c task ∨ Workless c tasks)

namespace RousesOnly

theorem of_same (hagenda : w'.agenda = w.agenda) : w.RousesOnly c task w' :=
  ⟨[], hagenda, .inr workless_nil⟩

theorem of_tasks (hagenda : w'.agenda = tasks ++ w.agenda) (htasks : Workless c tasks) :
    w.RousesOnly c task w' := ⟨tasks, hagenda, .inr htasks⟩

theorem of_rouses (hagenda : w'.agenda = tasks ++ w.agenda) (h : w.Rouses c task) :
    w.RousesOnly c task w' := ⟨tasks, hagenda, .inl h⟩

theorem write (w : Workspace) (s : ScopeId) (x : SlotId) (v : SlotValue) :
    w.RousesOnly c task (w.write s x v) := by
  unfold Workspace.write
  simp only
  split
  · exact of_tasks rfl (by simp [Task.works])
  · exact of_same rfl

theorem tell (l : Listener) (v : SlotValue) : w.RousesOnly c (.tell l v) (w.tell v l) := by
  unfold Workspace.tell
  cases l with
  | importer s name =>
    simp only
    split
    · exact of_tasks rfl (by simp [noticeTasks, Task.works])
    · exact of_same rfl
  | input c' name =>
    simp only
    split
    · exact of_same rfl
    rename_i cell hcell
    split
    · exact of_same rfl
    rename_i i hi
    split
    · exact of_same rfl
    split
    · exact of_same rfl
    rename_i hawake
    by_cases hc : c' = c
    · subst hc
      exact of_rouses rfl (.told v hcell hi (Bool.eq_false_iff.mpr hawake))
    · exact of_tasks rfl (by simp [Task.works, hc])
  | client k =>
    simp only
    split
    · exact of_same rfl
    · exact of_tasks rfl (by simp [Task.works])

theorem dispatch (w : Workspace) (c' : CellId) (cell : Cell) (e : Expr) :
    w.RousesOnly c task (w.dispatch c' cell e) :=
  of_tasks rfl (by simp [Task.works])

theorem advance (hc : c' ≠ c) (cell : Cell) (generation : Nat) :
    w.RousesOnly c task (w.advance c' cell generation) := by
  unfold Workspace.advance
  split
  · exact of_same rfl
  split
  · exact of_same rfl
  split
  · exact of_same rfl
  · exact dispatch w c' cell _
  · exact of_tasks rfl (by simp [Task.works, hc])

theorem receive {answer : Answer} {outcome : Outcome}
    (hanswers : w.answering? op = some (id, answer))
    (hcells : w'.cells = w.cells) (hagenda : w'.agenda = w.agenda) :
    w.RousesOnly c (.operate op) (w'.receive id c' outcome) := by
  unfold Workspace.receive
  cases hcell : w'.cell? c' with
  | none => exact of_same hagenda
  | some cell =>
    simp only
    split
    · exact of_same hagenda
    rename_i hactive
    rw [not_not] at hactive
    split
    · exact of_same hagenda
    split
    · exact of_same hagenda
    · by_cases hc : c' = c
      · subst hc
        rw [cell?, hcells] at hcell
        exact of_rouses (congrArg _ hagenda) (.answered hcell hactive hanswers)
      · exact of_tasks (congrArg _ hagenda) (by simp [Task.works, hc])

theorem answerCommand {answer : Answer} (hanswers : w.answering? op = some (id, answer)) :
    w.RousesOnly c (.operate op) (w.answerCommand id answer).2 := by
  unfold Workspace.answerCommand
  split
  · exact of_same rfl
  · cases answer with
    | outcome | computed => exact receive hanswers rfl rfl
    | unreadable => exact of_same rfl

theorem performCell (w : Workspace) (c c' : CellId) (cell : Cell) (driven : CellTask) :
    w.RousesOnly c (.cell c' driven) (w.performCell c' cell driven) := by
  by_cases hown : c' = c ∧ (Task.cell c' driven).rank = .idle
  · obtain ⟨rfl, hidle⟩ := hown
    obtain ⟨tasks, hagenda, -⟩ := (Rests.performCell w c' cell hidle).agenda
    exact of_rouses hagenda (.own hidle)
  have hother : (Task.cell c' driven).rank = .idle → c' ≠ c := fun hidle hc => hown ⟨hc, hidle⟩
  unfold Workspace.performCell
  cases driven with
  | refresh | invalidate | evaluate => exact of_tasks rfl (by simp [Task.works, hother rfl])
  | reconsider =>
    simp only
    split
    · exact of_tasks rfl (by simp [Task.works, hother rfl])
    · exact of_same rfl
  | advance generation => exact advance (hother rfl) cell generation
  | enter scope =>
    by_cases hc : c' = c
    · subst hc
      exact of_rouses rfl (.enter scope)
    · exact of_tasks rfl (by simp [Task.works, hc])
  | synchronize =>
    simp only
    split
    · exact of_same rfl
    · exact of_tasks rfl (by simp [Task.works, Task.rank])
  | addOutput s name p =>
    simp only
    split
    · exact of_same rfl
    split
    · exact of_same rfl
    · exact of_tasks rfl (by simp [Task.works, Task.rank])
  | keepOutput s name slot => exact of_same rfl
  | addInput s name p =>
    simp only
    split
    · exact of_same rfl
    split <;> exact of_same rfl
  | endBatch outer always =>
    refine of_tasks rfl ?_
    split <;> simp [Task.works, hother rfl]

end RousesOnly

/-- Whom a task sets to work, it rouses. -/
theorem perform_rouses (c : CellId)
    (hop : ∀ op, task = .operate op → op.Replies ∨ op.Writes) :
    w.RousesOnly c task (w.perform task) := by
  cases task with
  | operate op =>
    rcases hop op rfl with hreplies | hwrites
    · rw [perform, operate_of_replies hreplies]
      cases hanswers : w.answering? op with
      | none => exact .of_same rfl
      | some entry => exact .answerCommand hanswers
    · rcases operate_of_writes (w := w) hwrites with heq | ⟨handle, -, v, heq⟩
      · rw [perform, heq]
        exact .of_same rfl
      · rw [perform, heq]
        exact .write w handle.scope handle.slot v
  | notifyReaders s readers =>
    unfold perform
    cases readers with
    | nil => exact .of_same rfl
    | cons reader later =>
      simp only
      split <;> exact .of_tasks rfl (by simp [Task.works])
  | notifyDefinition s slot =>
    unfold perform
    simp only
    split
    · exact .of_tasks rfl (by simp [Task.works])
    · exact .of_same rfl
  | tell l v => exact .tell l v
  | write s slot v => exact .write w s slot v
  | moveDefinition | moveReader | removeDefinition | removeReader =>
    exact .of_tasks rfl (by simp [noticeTasks, Task.works])
  | keepDefinition => exact .of_same rfl
  | cancel id =>
    unfold perform
    simp only
    split <;> exact .of_tasks rfl (by simp [Task.works])
  | cell c' driven =>
    cases hcell : w.cell? c' with
    | none =>
      rw [perform_cell_of_none hcell]
      exact .of_same rfl
    | some cell =>
      rw [perform_cell hcell]
      exact .performCell w c c' cell driven
  | releaseScope | releaseCell => exact .of_same rfl

/-- Bringing a cell in step does not enroll another one. -/
theorem any_equips_performCell (w : Workspace) (hc : c' ≠ c) (cell : Cell)
    (hrank : (Task.cell c' driven).rank ≠ .idle) :
    ∃ tasks, (w.performCell c' cell driven).agenda = tasks ++ w.agenda ∧
      tasks.any (Task.equips c) = false := by
  unfold performCell
  cases driven with
  | enter scope => exact ⟨_, rfl, by simp [Task.equips, hc]⟩
  | synchronize =>
    simp only
    split
    · exact ⟨[], rfl, rfl⟩
    · refine ⟨_, rfl, ?_⟩
      simp [Task.equips, hc, List.any_eq_false]
  | addOutput s name p =>
    simp only
    split
    · exact ⟨[], rfl, rfl⟩
    split
    · exact ⟨[], rfl, rfl⟩
    · exact ⟨_, rfl, by simp [Task.equips, hc]⟩
  | keepOutput s name slot => exact ⟨[], rfl, rfl⟩
  | addInput s name p =>
    simp only
    split
    · exact ⟨[], rfl, rfl⟩
    split <;> exact ⟨[], rfl, rfl⟩
  | _ => exact absurd rfl hrank

/-- A cell that is not at work stays suspended, and sends no command. -/
theorem suspended_perform (hmakes : ¬w.Makes c task) (hrests : task.works c = false)
    (henter : ∀ scope, task ≠ .cell c (.enter scope))
    (hop : ∀ op, task = .operate op → op.Replies ∨ op.Writes)
    (hcell' : (w.perform task).cell? c = some cell') :
    ∃ cell, w.cell? c = some cell ∧ cell'.suspended = cell.suspended ∧
      ∀ id, cell'.active = some id → cell.active = some id := by
  have hpresent : w.cell? c ≠ none := (perform_turn hmakes).numbered.2 (by rw [hcell']; rintro ⟨⟩)
  obtain ⟨cell, hcell⟩ := Option.ne_none_iff_exists'.mp hpresent
  refine ⟨cell, hcell, ?_⟩
  cases perform_alters hcell hmakes hcell' with
  | same | told | synchronize | keepOutput | addInput => exact ⟨rfl, fun _ => id⟩
  | fail | drop | answer => exact ⟨rfl, fun _ => by rintro ⟨⟩⟩
  | enter scope => exact absurd rfl (henter scope)
  | unregister | edit | move | automate => exact (or_self_iff.mp (hop _ rfl)).elim
  | invalidate | rest | evaluate | finish | send | assign | endBatch =>
    simp [Task.works, Task.rank] at hrests

/-! ### Cells that rest -/

/-- Nothing is done with a cell before it is in step, except to bring it in step: it is suspended or
has no inputs yet, and its command is not going to be answered. -/
structure Resting (w : Workspace) (c : CellId) (agenda : List Task) : Prop where
  apart : agenda.Pairwise fun task later => task.works c = true → later.equips c = false
  suspended : agenda.any (Task.equips c) = true → ∀ cell, w.cell? c = some cell →
    cell.suspended = true ∨ ∃ scope, .cell c (.enter scope) ∈ agenda
  unanswered : agenda.any (Task.equips c) = true → ∀ cell id, w.cell? c = some cell →
    cell.active = some id → agenda.any (Task.replies id) = false

namespace Resting

/-- A cell that is in step need not rest. -/
theorem of_none (h : agenda.any (Task.equips c) = false) : w.Resting c agenda where
  apart := List.pairwise_of_forall_mem_list fun _ _ later hlater _ =>
    Bool.eq_false_iff.mpr (List.any_eq_false.mp h later hlater)
  suspended hany := by rw [h] at hany; cases hany
  unanswered hany := by rw [h] at hany; cases hany

/-- The cell goes on to rest. -/
theorem frame (h : w.Resting c (task :: w.agenda)) (hagenda : w'.agenda = tasks ++ w.agenda)
    (htasks : Workless c tasks)
    (hequips : tasks.any (Task.equips c) = true → task.equips c = true)
    (henter : (∃ scope, task = .cell c (.enter scope)) → w'.cell? c = none)
    (hcell : ∀ cell', w'.cell? c = some cell' → ∃ cell, w.cell? c = some cell ∧
      cell'.suspended = cell.suspended ∧ ∀ id, cell'.active = some id → cell.active = some id)
    (hreplies : ∀ cell id, w.cell? c = some cell → cell.active = some id →
      w.agenda.any (Task.replies id) = false → w'.agenda.any (Task.replies id) = false) :
    w'.Resting c w'.agenda := by
  have hbefore : w'.agenda.any (Task.equips c) = true →
      (task :: w.agenda).any (Task.equips c) = true := by
    rw [hagenda, List.any_append, List.any_cons, Bool.or_eq_true, Bool.or_eq_true]
    exact Or.imp_left hequips
  refine ⟨?_, fun hany cell' hcell' => ?_, fun hany cell' id hcell' hactive => ?_⟩
  · rw [hagenda]
    refine List.pairwise_append.mpr ⟨List.pairwise_of_forall_mem_list ?_,
      (List.pairwise_cons.mp h.apart).2, ?_⟩
    · intro earlier hearlier later _ hworks
      rw [htasks earlier hearlier] at hworks
      cases hworks
    · intro earlier hearlier later _ hworks
      rw [htasks earlier hearlier] at hworks
      cases hworks
  · obtain ⟨cell, hfound, hsame, -⟩ := hcell cell' hcell'
    refine (h.suspended (hbefore hany) cell hfound).imp hsame.trans ?_
    rintro ⟨scope, hmem⟩
    refine ⟨scope, hagenda ▸ List.mem_append_right _ ((List.mem_cons.mp hmem).resolve_left ?_)⟩
    intro heq
    rw [henter ⟨scope, heq.symm⟩] at hcell'
    cases hcell'
  · obtain ⟨cell, hfound, -, hsame⟩ := hcell cell' hcell'
    have hnone := h.unanswered (hbefore hany) cell id hfound (hsame id hactive)
    rw [List.any_cons, Bool.or_eq_false_iff] at hnone
    exact hreplies cell id hfound (hsame id hactive) hnone.2

/-- A batch begins when nothing else is to be done about who is enrolled. -/
theorem batch (hidle : AllIdle w.agenda) (new : Cell) (always : Bool)
    (hreplies : c' = c → ∀ id, new.active = some id → w.agenda.any (Task.replies id) = false) :
    (w.batch c' new always).Resting c (w.batch c' new always).agenda := by
  by_cases hc : c' = c
  swap
  · refine of_none ?_
    rw [Workspace.batch, Workspace.push, List.any_append, Bool.or_eq_false_iff]
    exact ⟨by simp [Task.equips, hc], hidle.any_equips⟩
  subst hc
  have hlater : ∀ later ∈ w.agenda, later.equips c' = false := fun later hlater =>
    Task.equips_of_idle (hidle later hlater)
  refine ⟨?_, fun _ cell hcell => ?_, fun _ cell id hcell hactive => ?_⟩
  · rw [Workspace.batch, Workspace.push, List.cons_append, List.cons_append, List.nil_append,
      List.pairwise_cons, List.pairwise_cons]
    refine ⟨fun later _ hworks => by simp [Task.works, Task.rank] at hworks,
      fun later hmem _ => hlater later hmem, List.pairwise_of_forall_mem_list ?_⟩
    exact fun _ _ later hmem _ => hlater later hmem
  · cases (cell?_putCell w c' _).symm.trans hcell
    exact .inl rfl
  · cases (cell?_putCell w c' _).symm.trans hcell
    have hnone := hreplies rfl id hactive
    rw [Workspace.batch, Workspace.push, List.any_append, Bool.or_eq_false_iff]
    exact ⟨by simp [Task.replies], hnone⟩

/-- A cell leaves its scope when nothing else is to be done. -/
theorem setScope (hquiet : w.agenda = []) (c' : CellId) (cell : Cell) (scope : Option ScopeId) :
    (w.setScope c' cell scope).Resting c (w.setScope c' cell scope).agenda := by
  unfold Workspace.setScope
  split
  · exact of_none (by rw [hquiet]; rfl)
  have hreplies : ∀ id, ((w.putCell c' cell.unregistered).push (cancelTasks cell.active
      ++ cell.inputs.values.map (fun i => Task.removeReader i.scope i.reader)
      ++ cell.outputs.values.map (fun o => Task.removeDefinition o.scope o.slot)
      ++ [.cell c' (.enter scope), .releaseCell c'])).agenda.any (Task.replies id) = false := by
    intro id
    simp [Workspace.push, Workspace.putCell, hquiet, cancelTasks, Task.replies]
  by_cases hc : c' = c
  · subst hc
    refine ⟨?_, fun _ _ _ => .inr ⟨scope, by simp [Workspace.push]⟩, fun _ _ id _ _ => hreplies id⟩
    refine List.pairwise_of_forall_mem_list fun earlier hearlier later _ hworks => ?_
    have hworkless : Workless c' (cancelTasks cell.active
        ++ cell.inputs.values.map (fun i => Task.removeReader i.scope i.reader)
        ++ cell.outputs.values.map (fun o => Task.removeDefinition o.scope o.slot)
        ++ [.cell c' (.enter scope), .releaseCell c']) := by
      simp [Task.works, Task.rank]
    rw [Workspace.push, show (w.putCell c' cell.unregistered).agenda = [] from hquiet,
      List.append_nil] at hearlier
    rw [hworkless earlier hearlier] at hworks
    cases hworks
  · refine of_none ?_
    simp [Workspace.push, Workspace.putCell, hquiet, cancelTasks, Task.equips, hc]

/-- An operation of the client on a cell. -/
theorem operate (hquiet : w.agenda = []) (henlists : op.enlists = true) :
    (w.operate op).2.Resting c (w.operate op).2.agenda := by
  have hnone : w.agenda.any (Task.equips c) = false := by rw [hquiet]; rfl
  have hheld : ∀ {c' : CellId} {f : Cell → Workspace},
      (∀ cell, w.cell? c' = some cell → (f cell).Resting c (f cell).agenda) →
      (w.onHeldCell c' f).Resting c (w.onHeldCell c' f).agenda := by
    intro c' f hf
    rw [onHeldCell_eq]
    cases hcell : w.heldCell? c' with
    | none => exact of_none hnone
    | some cell => exact hf cell (cell?_of_heldCell? hcell)
  have hbatch : ∀ {c' : CellId} (new : Cell) (always : Bool),
      ((w.push [.releaseCell c']).batch c' new always).Resting c
        ((w.push [.releaseCell c']).batch c' new always).agenda := by
    intro c' new always
    refine batch ?_ new always fun _ _ _ => ?_
    · simp [Workspace.push, hquiet, Task.rank]
    · simp [Workspace.push, hquiet, Task.replies]
  cases op with
  | addDefinition s name y =>
    unfold Workspace.operate
    simp only
    split
    · split
      · exact of_none (by simp [Workspace.push, hquiet, Task.equips])
      · exact of_none hnone
    · exact of_none hnone
  | addReader s name y =>
    unfold Workspace.operate
    simp only
    split
    · split <;> exact of_none hnone
    · exact of_none hnone
  | move handle y | remove handle =>
    cases handle <;>
    · unfold Workspace.operate
      simp only
      split
      · exact of_none (by simp [Workspace.push, hquiet, Task.equips])
      · exact of_none hnone
  | newCell position expression scope automatic =>
    let made : Workspace :=
      { w with nextCell := w.nextCell + 1, heldCells := w.heldCells ++ [w.nextCell] }
    have hmade : (made.putCell w.nextCell { expression, position, automatic }).agenda = [] := hquiet
    exact setScope hmade w.nextCell _ _
  | setScope c' scope =>
    refine hheld fun cell hcell => ?_
    split
    · exact setScope hquiet c' cell scope
    · exact of_none hnone
  | setExpression c' e => exact hheld fun cell _ => hbatch _ true
  | setPosition c' y =>
    refine hheld fun cell _ => ?_
    split
    · exact of_none hnone
    · exact hbatch _ false
  | _ => cases henlists

/-- What is not about who is enrolled leaves the cell alone that rests. -/
theorem idle (h : w.Resting c (task :: w.agenda))
    (hop : ∀ op, task = .operate op → op.Writes ∨ (∃ id answer, op = .answer (some id) answer) ∨
      w.agenda = [])
    (hposted : w.Posted (task :: w.agenda)) (hidle : task.rank = .idle)
    (hrests : w.Rests (w.perform task))
    (hunanswered : ∀ cell id, w.cell? c = some cell → cell.active = some id →
      w.agenda.any (Task.replies id) = false →
      (w.perform task).agenda.any (Task.replies id) = false) :
    (w.perform task).Resting c (w.perform task).agenda := by
  obtain ⟨tasks, hagenda, htasks⟩ := hrests.agenda
  by_cases hlater : w.agenda.any (Task.equips c) = true
  swap
  · rw [Bool.not_eq_true] at hlater
    refine of_none ?_
    rw [hagenda, List.any_append, htasks.any_equips, hlater]
    rfl
  have hany : (task :: w.agenda).any (Task.equips c) = true := by
    rw [List.any_cons, hlater, Bool.or_true]
  have hworks : task.works c = false := by
    obtain ⟨later, hmem, hequips⟩ := List.any_eq_true.mp hlater
    rw [← Bool.not_eq_true]
    intro hworks
    rw [(List.pairwise_cons.mp h.apart).1 later hmem hworks] at hequips
    cases hequips
  have hbusy : w.agenda ≠ [] := by
    intro hquiet
    rw [hquiet] at hlater
    cases hlater
  have hnested : ∀ op, task = .operate op → op.Writes ∨ ∃ id answer, op = .answer (some id) answer :=
    fun op heq => (hop op heq).imp_right fun hanswer => hanswer.resolve_right hbusy
  have hreplies : ∀ op, task = .operate op → op.Replies ∨ op.Writes := by
    intro op heq
    rcases hnested op heq with hwrites | ⟨id, answer, rfl⟩
    · exact .inr hwrites
    · exact .inl trivial
  have hmakes : ¬w.Makes c task := by
    rintro ⟨-, position, expression, scope, automatic, rfl⟩
    exact (hreplies _ rfl).elim id id
  have hroused : ¬w.Rouses c task := by
    intro hroused
    cases hroused with
    | own hown => simp [Task.works, hown] at hworks
    | enter scope => cases hidle
    | @told cell name i v hcell hi hawake =>
      rcases h.suspended hany cell hcell with hsuspended | ⟨scope, hmem⟩
      · rw [hawake] at hsuspended
        cases hsuspended
      · exact (hposted.entering hmem).2 hcell (Cell.has_reader_iff.mpr ⟨i, hi, rfl, rfl⟩)
    | @answered cell op id answer hcell hactive hanswers =>
      obtain ⟨id', answer', rfl⟩ := (hnested op rfl).resolve_left fun hwrites => by
        rw [answering?_of_writes hwrites] at hanswers
        cases hanswers
      have hid : id' = id := by
        unfold answering? at hanswers
        cases hchannel : w.backend.channel <;> simp [hchannel] at hanswers
        exact hanswers.1
      have hnone := h.unanswered hany cell id hcell hactive
      simp [Task.replies, hid] at hnone
  obtain ⟨tasks', hagenda', hworkless⟩ := (perform_rouses c hreplies).agenda
  obtain rfl : tasks' = tasks := List.append_cancel_right (hagenda'.symm.trans hagenda)
  refine h.frame hagenda (hworkless.resolve_left hroused) (fun hequips => ?_) ?_
    (fun cell' hcell' => suspended_perform hmakes hworks ?_ hreplies hcell') hunanswered
  · rw [htasks.any_equips] at hequips
    cases hequips
  · rintro ⟨scope, rfl⟩
    cases hidle
  · rintro scope rfl
    cases hidle

/-- One task leaves the cell at rest, if operations that are set off by others only write definitions
or answer commands. -/
theorem perform (h : w.Resting c (task :: w.agenda))
    (hop : ∀ op, task = .operate op → op.Writes ∨ (∃ id answer, op = .answer (some id) answer) ∨
      w.agenda = [])
    (htied : w.tree.WellTied) (hposted : w.Posted (task :: w.agenda))
    (hunanswered : ∀ cell id, w.cell? c = some cell → cell.active = some id →
      w.agenda.any (Task.replies id) = false →
      (w.perform task).agenda.any (Task.replies id) = false) :
    (w.perform task).Resting c (w.perform task).agenda := by
  by_cases henlists : ∃ op, task = .operate op ∧ op.enlists = true
  · obtain ⟨op, rfl, henlists⟩ := henlists
    refine operate ?_ henlists
    rcases hop op rfl with hwrites | ⟨id, answer, rfl⟩ | hquiet
    · rw [hwrites.enlists] at henlists
      cases henlists
    · cases henlists
    · exact hquiet
  by_cases hidle : task.rank = .idle
  · refine h.idle hop hposted hidle (perform_rests htied hidle fun op heq => ?_) hunanswered
    exact Bool.eq_false_iff.mpr fun hop => henlists ⟨op, heq, hop⟩
  have hsame : ∀ cell', w.cell? c = some cell' → ∃ cell, w.cell? c = some cell ∧
      cell'.suspended = cell.suspended ∧ ∀ id, cell'.active = some id → cell.active = some id :=
    fun cell' hcell' => ⟨cell', hcell', rfl, fun _ => id⟩
  cases task with
  | moveDefinition | moveReader | removeDefinition | removeReader =>
    exact h.frame rfl (by simp [noticeTasks, Task.works]) (by simp [noticeTasks, Task.equips])
      (by rintro ⟨scope, ⟨⟩⟩) hsame hunanswered
  | keepDefinition =>
    exact h.frame (List.nil_append _).symm workless_nil (by simp) (by rintro ⟨scope, ⟨⟩⟩) hsame
      hunanswered
  | cell c' driven =>
    cases hcell : w.cell? c' with
    | none =>
      have hstays := perform_cell_of_none hcell driven
      rw [hstays] at hunanswered ⊢
      refine h.frame (List.nil_append _).symm workless_nil (by simp) ?_ hsame hunanswered
      rintro ⟨scope, heq⟩
      cases heq
      exact hcell
    | some cell =>
      by_cases henter : ∃ scope, driven = .enter scope
      · obtain ⟨scope, rfl⟩ := henter
        rw [perform_cell hcell]
        refine batch (hposted.queued.allIdle_of_turn rfl) _ true fun hc id hactive => ?_
        subst hc
        have hnone := h.unanswered (by simp [Task.equips, Task.rank]) cell id hcell hactive
        rw [List.any_cons, Bool.or_eq_false_iff] at hnone
        exact hnone.2
      have hnot : ∀ scope, Task.cell c' driven ≠ .cell c (.enter scope) := by
        rintro scope heq
        cases heq
        exact henter ⟨scope, rfl⟩
      have hworks : (Task.cell c' driven).works c = false := by simp [Task.works, hidle]
      have honly : w.RousesOnly c (.cell c' driven) (w.perform (.cell c' driven)) :=
        perform_rouses c (by rintro op ⟨⟩)
      obtain ⟨tasks, hagenda, hworkless⟩ := honly.agenda
      refine h.frame hagenda (hworkless.resolve_left ?_) (fun hequips => ?_) ?_
        (fun cell' hcell' => suspended_perform ?_ hworks hnot (by rintro op ⟨⟩) hcell') hunanswered
      · intro hroused
        cases hroused with
        | own hown => exact hidle hown
        | enter scope => exact henter ⟨scope, rfl⟩
      · by_cases hc : c' = c
        · subst hc
          simp [Task.equips, hidle]
        obtain ⟨tasks', hagenda', hnone⟩ := w.any_equips_performCell hc cell hidle
        rw [perform_cell hcell] at hagenda
        obtain rfl : tasks = tasks' := List.append_cancel_right (hagenda.symm.trans hagenda')
        rw [hnone] at hequips
        cases hequips
      · rintro ⟨scope, heq⟩
        exact absurd heq (hnot scope)
      · rintro ⟨-, position, expression, scope, automatic, ⟨⟩⟩
  | _ => exact absurd rfl hidle

theorem sweep (h : w.Resting c w.agenda) : w.sweep.Resting c w.sweep.agenda := by
  obtain ⟨cells, tree, hsweep, hcells⟩ := w.exists_sweep_eq
  rw [hsweep]
  exact ⟨h.apart, fun hany cell hcell => h.suspended hany cell (hcells hcell),
    fun hany cell id hcell => h.unanswered hany cell id (hcells hcell)⟩

end Resting

/-- A cell in a scope about which nothing is left to be done has what its expression reads and
writes, and nothing else. -/
theorem Supplies.has_iff_mem_wants (h : w.Supplies w.agenda)
    (hnone : w.agenda.any (Task.equips c) = false) (hcell : w.cell? c = some cell)
    (hattached : cell.scope ≠ none) (name : String) (k : Role) :
    (∃ s x, cell.Has name s x k) ↔ name ∈ cell.wants k := by
  have hnot : ∀ driven, .cell c driven ∈ w.agenda → (Task.cell c driven).rank = .idle := by
    intro driven hmem
    have hequips := List.any_eq_false.mp hnone _ hmem
    simpa [Task.equips] using hequips
  have hwants := (h c cell hcell).resolve_left ?_
  · rw [hwants hattached name k, Gets, or_iff_left]
    rintro ⟨driven, hmem, hgrants⟩
    exact (CellTask.rank_of_grants? hgrants).1 (hnot driven hmem)
  · rintro ⟨driven, hmem, hrank⟩
    rw [hnot driven hmem] at hrank
    cases hrank

/-! ### Chronicles -/

variable {backend : Backend} {may : Workspace → Op → Prop} {deeds : List Deed}

/-- In a chronicle cells rest while they are brought in step. -/
theorem Chronicle.resting (h : Chronicle backend may deeds w) (hprompt : backend.Prompt)
    (c : CellId) : w.Resting c w.agenda := by
  induction h with
  | start => exact .of_none rfl
  | call op _ hquiet _ _ _ => exact .of_none (by simp [Workspace.call, Task.equips])
  | @step deeds w task rest hbefore hagenda ih =>
    have hpoised := hbefore.poised hprompt hagenda
    have hposted := hbefore.posted hprompt
    obtain ⟨hsecluded, -, -⟩ := hbefore.exists_run hprompt
    rw [hagenda] at ih hposted
    have hpopped : ({ w with agenda := rest } : Workspace).Resting c (task :: rest) :=
      ⟨ih.apart, ih.suspended, ih.unanswered⟩
    rw [step_of_agenda hagenda]
    refine (hpopped.perform (fun op heq => .inr ?_) hsecluded.ready.tied
      (hposted.of_same rfl rfl rfl rfl) fun cell id hcell hactive hnone => ?_).sweep
    · subst heq
      rcases hpoised.operations op List.mem_cons_self with ⟨id, answer, heq, -⟩ | ⟨-, heq⟩
      · exact .inl ⟨id, answer, heq⟩
      · exact .inr (List.cons.inj heq).2
    · exact (hpoised.any_replies_perform (hbefore.lt_nextCommand hprompt hcell hactive) hnone).2

/-- A cell in a scope that is at work has what its expression reads and writes, and nothing else. -/
theorem Chronicle.has_iff_mem_wants (h : Chronicle backend may deeds w) (hprompt : backend.Prompt)
    (hnone : w.agenda.any (Task.equips c) = false) (hcell : w.cell? c = some cell)
    (hattached : cell.scope ≠ none) (name : String) (k : Role) :
    (∃ s x, cell.Has name s x k) ↔ name ∈ cell.wants k :=
  (h.supplies hprompt).has_iff_mem_wants hnone hcell hattached name k

end Workspace

end MathCanvas
