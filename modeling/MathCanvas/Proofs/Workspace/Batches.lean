import MathCanvas.Proofs.Workspace.Attuned
import MathCanvas.Proofs.Workspace.Deeds

/-!
# Batches

While the inputs and outputs of a cell are brought in step the cell is suspended: it only notes that
an input changed. There is one such batch of a cell at a time, unless operations on cells are called
while others are in progress (`Workspace.Batched`). What happened to a cell that makes its run out of date is therefore not
forgotten: until the cell is invalidated, it owes that (`Workspace.Owes`), and when nothing is in
progress it owes nothing (`Workspace.Batched.not_owes`).
-/

namespace MathCanvas

/-- Whether a task begins or ends a batch of a cell. -/
def Task.batches (c : CellId) : Task → Bool
  | .cell c' (.enter _) | .cell c' (.endBatch _ _) => c' == c
  | _ => false

/-- Whether a task leads to an invalidation of a cell in any case. -/
def Task.brings (c : CellId) : Task → Bool
  | .cell c' .refresh | .cell c' .invalidate | .cell c' (.endBatch _ true) => c' == c
  | _ => false

theorem Task.batches_of_not_registers {c : CellId} {task : Task} (h : task.registers c = false) :
    task.batches c = false := by
  cases task with
  | cell c' driven =>
    cases driven with
    | enter | endBatch => exact h
    | _ => rfl
  | _ => rfl

theorem Task.eq_of_registers {c : CellId} {task : Task} (h : task.registers c = true)
    (hbatch : task.batches c = false) :
    task = .cell c .synchronize ∨ ∃ s name p, task = .cell c (.addInput s name p) := by
  cases task with
  | cell c' driven =>
    cases driven with
    | enter | endBatch =>
      rw [batches] at hbatch
      rw [registers, hbatch] at h
      cases h
    | synchronize => exact .inl (by rw [eq_of_beq h])
    | addInput s name p => exact .inr ⟨s, name, p, by rw [eq_of_beq h]⟩
    | _ => cases h
  | _ => cases h

theorem Cell.begin_batch (cell : Cell) (unset : CellInput → Bool) :
    (cell.begin unset).2.suspended = cell.suspended ∧
      (cell.begin unset).2.dirty = cell.dirty := by
  unfold Cell.begin
  simp only
  split
  · exact ⟨rfl, rfl⟩
  split
  · exact ⟨rfl, rfl⟩
  · exact ⟨rfl, rfl⟩
  split <;> exact ⟨rfl, rfl⟩

namespace Workspace

variable {w w' : Workspace} {c : CellId} {cell cell' : Cell} {task : Task} {agenda tasks : List Task}
  {op : Op} {driven : CellTask}

/-- At most one batch of the cell is in progress, and the cell is suspended only until it ends. -/
structure Batched (w : Workspace) (c : CellId) (agenda : List Task) : Prop where
  once : agenda.countP (Task.batches c) ≤ 1
  outermost : ∀ always, .cell c (.endBatch true always) ∉ agenda
  suspended : ∀ cell, w.cell? c = some cell → cell.suspended = true →
    ∃ always, .cell c (.endBatch false always) ∈ agenda

theorem Steady.countP_batches (h : Steady c tasks) : tasks.countP (Task.batches c) = 0 :=
  List.countP_eq_zero.mpr fun task htask => by
    simp [Task.batches_of_not_registers (h task htask)]

theorem not_mem_of_countP_batches (h : tasks.countP (Task.batches c) = 0) {driven : CellTask}
    (hdriven : (Task.cell c driven).batches c = true) : .cell c driven ∉ tasks :=
  fun hmem => List.countP_eq_zero.mp h _ hmem hdriven

namespace Batched

/-- A cell is not suspended when its batch begins. -/
theorem not_suspended (h : w.Batched c agenda)
    (hnone : ∀ always, .cell c (.endBatch false always) ∉ agenda) (hcell : w.cell? c = some cell) :
    cell.suspended = false := by
  rw [← Bool.not_eq_true]
  intro hsuspended
  obtain ⟨always, hmem⟩ := h.suspended cell hcell hsuspended
  exact hnone always hmem

/-- The first task neither begins nor ends a batch. -/
theorem pass (h : w.Batched c (task :: w.agenda)) (htask : task.batches c = false)
    (hagenda : ∃ tasks, w'.agenda = tasks ++ w.agenda ∧ tasks.countP (Task.batches c) = 0)
    (hcell : ∀ cell', w'.cell? c = some cell' → cell'.suspended = true →
      ∃ cell, w.cell? c = some cell ∧ cell.suspended = true) : w'.Batched c w'.agenda := by
  obtain ⟨tasks, heq, hzero⟩ := hagenda
  have hmem : ∀ outer always, .cell c (.endBatch outer always) ∈ tasks ++ w.agenda ↔
      .cell c (.endBatch outer always) ∈ w.agenda := by
    intro outer always
    rw [List.mem_append,
      or_iff_right (not_mem_of_countP_batches hzero (by simp [Task.batches]))]
  rw [heq]
  refine ⟨?_, fun always hin => ?_, fun cell' hcell' hsuspended => ?_⟩
  · have honce := h.once
    rw [List.countP_cons_of_neg (Bool.eq_false_iff.mp htask)] at honce
    rw [List.countP_append, hzero, Nat.zero_add]
    exact honce
  · exact h.outermost always (List.mem_cons_of_mem _ ((hmem _ _).mp hin))
  · obtain ⟨cell, hfound, hbefore⟩ := hcell cell' hcell' hsuspended
    obtain ⟨always, hin⟩ := h.suspended cell hfound hbefore
    refine ⟨always, (hmem _ _).mpr ((List.mem_cons.mp hin).resolve_left ?_)⟩
    rintro rfl
    simp [Task.batches] at htask

/-- A batch begins. -/
theorem batch (hzero : w.agenda.countP (Task.batches c) = 0) (hcell : cell.suspended = false)
    (always : Bool) : (w.batch c cell always).Batched c (w.batch c cell always).agenda := by
  have hagenda : (w.batch c cell always).agenda =
      [.cell c .synchronize, .cell c (.endBatch false always)] ++ w.agenda := by
    rw [Workspace.batch, hcell]
    rfl
  rw [hagenda]
  refine ⟨?_, fun always' hin => ?_, fun _ _ _ => ⟨always, by simp⟩⟩
  · rw [List.countP_append, hzero]
    simp [Task.batches]
  · have hout := not_mem_of_countP_batches hzero
      (by simp [Task.batches] : (Task.cell c (.endBatch true always')).batches c = true)
    simp [hout] at hin

theorem countP_tail (h : w.Batched c (task :: agenda)) (htask : task.batches c = true) :
    agenda.countP (Task.batches c) = 0 := by
  have honce := h.once
  rw [List.countP_cons_of_pos htask] at honce
  omega

/-- No batch is in progress. -/
theorem of_countP (hzero : agenda.countP (Task.batches c) = 0)
    (hcell : ∀ cell, w.cell? c = some cell → cell.suspended = false) : w.Batched c agenda where
  once := hzero.trans_le (Nat.zero_le 1)
  outermost _ := not_mem_of_countP_batches hzero (by simp [Task.batches])
  suspended cell hfound hsuspended := by
    rw [hcell cell hfound] at hsuspended
    cases hsuspended

/-- A cell is registered in its scope, or brought in step. -/
theorem performCell (h : w.Batched c (.cell c driven :: w.agenda)) (hcell : w.cell? c = some cell)
    (hdriven : (Task.cell c driven).batches c = true) :
    (w.performCell c cell driven).Batched c (w.performCell c cell driven).agenda := by
  have hzero := h.countP_tail hdriven
  cases driven with
  | enter scope =>
    have hout : cell.suspended = false := by
      refine h.not_suspended (fun always hmem => ?_) hcell
      exact not_mem_of_countP_batches hzero (by simp [Task.batches])
        ((List.mem_cons.mp hmem).resolve_left (by simp))
    have hentered : ({ cell with scope } : Cell).suspended = false := hout
    exact batch hzero hentered true
  | endBatch outer always =>
    have houter : outer = false := by
      rw [← Bool.not_eq_true]
      rintro rfl
      exact h.outermost always List.mem_cons_self
    subst houter
    refine of_countP ?_ fun cell' hfound => ?_
    · show (ite _ _ _ ++ w.agenda).countP _ = 0
      rw [List.countP_append, hzero]
      split <;> simp [Task.batches]
    · have hlookup := (cell?_putCell w c _).symm.trans hfound
      cases hlookup
      rfl
  | _ => simp [Task.batches] at hdriven

end Batched

/-- Only an operation on a cell, and the end of it, put a batch of the cell on the agenda. -/
theorem countP_batches_perform (w : Workspace) (htask : task.batches c = false)
    (hop : ∀ op, task = .operate op → op.registers w.nextCell c = false) :
    ∃ tasks, (w.perform task).agenda = tasks ++ w.agenda ∧ tasks.countP (Task.batches c) = 0 := by
  by_cases hcell : ∃ c' driven, task = .cell c' driven ∧
      (c' = c ∧ driven = .synchronize ∨ ∃ s name p, driven = .addInput s name p)
  · obtain ⟨c', driven, rfl, hdriven⟩ := hcell
    cases hcell : w.cell? c' with
    | none =>
      rw [perform_cell_of_none hcell]
      exact ⟨[], rfl, rfl⟩
    | some cell =>
      rw [perform_cell hcell]
      unfold performCell
      rcases hdriven with ⟨rfl, rfl⟩ | ⟨s, name, p, rfl⟩
      · simp only
        split
        · exact ⟨[], rfl, rfl⟩
        · refine ⟨_, rfl, ?_⟩
          simp [List.countP_eq_zero, Task.batches]
      · simp only
        split
        · exact ⟨[], rfl, rfl⟩
        split <;> exact ⟨[], rfl, rfl⟩
  · have hheeds := w.perform_heeds (fun _ hmay => hmay) (fun hgives => hgives) fun c' s name p heq =>
      hcell ⟨c', _, heq, .inr ⟨s, name, p, rfl⟩⟩
    obtain ⟨tasks, hagenda, htasks⟩ := hheeds.agenda
    refine ⟨tasks, hagenda, (htasks.steady ?_).countP_batches⟩
    rintro (hregisters | ⟨op, rfl, hregisters⟩)
    · rcases Task.eq_of_registers hregisters htask with rfl | ⟨s, name, p, rfl⟩
      · exact hcell ⟨c, _, rfl, .inl ⟨rfl, rfl⟩⟩
      · exact hcell ⟨c, _, rfl, .inr ⟨s, name, p, rfl⟩⟩
    · rw [hop op rfl] at hregisters
      cases hregisters

namespace Batched

theorem setScope (hzero : w.agenda.countP (Task.batches c) = 0) (hcell : w.cell? c = some cell)
    (hout : cell.suspended = false) (scope : Option ScopeId) :
    (w.setScope c cell scope).Batched c (w.setScope c cell scope).agenda := by
  unfold Workspace.setScope
  split
  · refine of_countP hzero fun found hfound => ?_
    exact Option.some.inj (hcell.symm.trans hfound) ▸ hout
  · refine ⟨?_, fun always hmem => ?_, fun found hfound hsuspended => ?_⟩
    · simp [Workspace.push, Workspace.putCell, hzero, cancelTasks, Task.batches,
        Function.comp_def]
    · have hrest := not_mem_of_countP_batches hzero
        (by simp [Task.batches] : (Task.cell c (.endBatch true always)).batches c = true)
      simp [Workspace.push, Workspace.putCell, hrest, cancelTasks] at hmem
    · obtain rfl : cell.unregistered = found :=
        Option.some.inj ((cell?_putCell w c _).symm.trans hfound)
      have hsame : cell.suspended = true := hsuspended
      rw [hout] at hsame
      cases hsame

/-- An operation on the cell when nothing is in progress. -/
theorem operate (hquiet : w.agenda = []) (hcell : ∀ cell, w.cell? c = some cell → cell.suspended = false)
    (hop : op.registers w.nextCell c = true) :
    (w.operate op).2.Batched c (w.operate op).2.agenda := by
  have hnothing : w.Batched c w.agenda := of_countP (by rw [hquiet]; rfl) hcell
  have hzero : w.agenda.countP (Task.batches c) = 0 := by rw [hquiet]; rfl
  have hrelease : (w.push [.releaseCell c]).agenda.countP (Task.batches c) = 0 := by
    simp [Workspace.push, hzero, Task.batches]
  cases op with
  | setScope c' scope =>
    obtain rfl : c' = c := eq_of_beq hop
    show (w.onHeldCell c' _).Batched c' (w.onHeldCell c' _).agenda
    rw [onHeldCell_eq]
    cases hheld : w.heldCell? c' with
    | none => exact hnothing
    | some cell =>
      have hfound := cell?_of_heldCell? hheld
      rw [Option.elim_some]
      split
      · exact setScope hzero hfound (hcell cell hfound) scope
      · exact hnothing
  | setExpression c' expression =>
    obtain rfl : c' = c := eq_of_beq hop
    show (w.onHeldCell c' _).Batched c' (w.onHeldCell c' _).agenda
    rw [onHeldCell_eq]
    cases hheld : w.heldCell? c' with
    | none => exact hnothing
    | some cell =>
      have hout : ({ cell with expression } : Cell).suspended = false :=
        hcell cell (cell?_of_heldCell? hheld)
      exact batch hrelease hout true
  | setPosition c' position =>
    obtain rfl : c' = c := eq_of_beq hop
    show (w.onHeldCell c' _).Batched c' (w.onHeldCell c' _).agenda
    rw [onHeldCell_eq]
    cases hheld : w.heldCell? c' with
    | none => exact hnothing
    | some cell =>
      have hout : ({ cell with position } : Cell).suspended = false :=
        hcell cell (cell?_of_heldCell? hheld)
      rw [Option.elim_some]
      split
      · exact hnothing
      · exact batch hrelease hout false
  | newCell position expression scope automatic =>
    obtain rfl : w.nextCell = c := eq_of_beq hop
    let cell : Cell := { expression, position, automatic }
    let made : Workspace :=
      { w with nextCell := w.nextCell + 1, heldCells := w.heldCells ++ [w.nextCell] }
    have hmade : (made.putCell w.nextCell cell).agenda.countP (Task.batches w.nextCell) = 0 := hzero
    exact setScope hmade (cell?_putCell made w.nextCell cell) rfl _
  | _ => cases hop

/-- One task keeps the batches of the cell in order. -/
theorem perform (h : w.Batched c (task :: w.agenda))
    (hop : ∀ op, task = .operate op → op.enlists = false ∨ w.agenda = []) :
    (w.perform task).Batched c (w.perform task).agenda := by
  by_cases hregisters : ∃ op, task = .operate op ∧ op.registers w.nextCell c = true
  · obtain ⟨op, rfl, hregisters⟩ := hregisters
    have hquiet : w.agenda = [] := by
      refine (hop op rfl).resolve_left fun hcalm => ?_
      rw [Op.registers_of_enlists hcalm] at hregisters
      cases hregisters
    refine operate hquiet (fun cell hcell => ?_) hregisters
    exact h.not_suspended (by simp [hquiet]) hcell
  have hop' : ∀ op, task = .operate op → op.registers w.nextCell c = false := by
    rintro op rfl
    exact Bool.eq_false_iff.mpr fun htrue => hregisters ⟨op, rfl, htrue⟩
  cases hbatches : task.batches c with
  | true =>
    cases task with
    | cell c' driven =>
      obtain rfl : c' = c := by
        cases driven with
        | enter | endBatch => exact eq_of_beq hbatches
        | _ => cases hbatches
      cases hcell : w.cell? c' with
      | none =>
        rw [perform_cell_of_none hcell]
        refine of_countP (h.countP_tail hbatches) fun cell hfound => ?_
        rw [hcell] at hfound
        cases hfound
      | some cell =>
        rw [perform_cell hcell]
        exact performCell h hcell hbatches
    | _ => cases hbatches
  | false =>
    refine h.pass hbatches (w.countP_batches_perform hbatches hop') fun cell' hcell' hsuspended => ?_
    have hmakes : ¬w.Makes c task := by
      rintro ⟨rfl, position, expression, scope, automatic, rfl⟩
      have hfalse := hop' _ rfl
      rw [Op.registers, beq_self_eq_true] at hfalse
      cases hfalse
    obtain ⟨cell, hcell⟩ := Option.ne_none_iff_exists'.mp
      ((perform_turn hmakes).numbered.2 (by rw [hcell']; exact Option.some_ne_none _))
    refine ⟨cell, hcell, ?_⟩
    cases perform_alters hcell hmakes hcell' with
    | evaluate => exact (cell.begin_batch _).1 ▸ hsuspended
    | enter | endBatch => simp [Task.batches] at hbatches
    | edit expression | move position =>
      have hfalse := hop' _ rfl
      rw [Op.registers, beq_self_eq_true] at hfalse
      cases hfalse
    | _ => exact hsuspended

theorem sweep (h : w.Batched c w.agenda) : w.sweep.Batched c w.sweep.agenda := by
  obtain ⟨cells, tree, heq, hcells⟩ := w.exists_sweep_eq
  rw [heq]
  exact ⟨h.once, h.outermost, fun cell hcell => h.suspended cell (hcells hcell)⟩

theorem call (h : w.Batched c w.agenda) (hquiet : w.agenda = []) (op : Op) :
    (w.call op).Batched c (w.call op).agenda := by
  refine of_countP rfl fun cell hcell => h.not_suspended ?_ hcell
  simp [hquiet]

end Batched

/-! ### What is not forgotten -/

/-- The cell is going to be invalidated, or notes that it has to be at the end of its batch. -/
def Owes (w : Workspace) (c : CellId) (agenda : List Task) : Prop :=
  agenda.any (Task.brings c) = true ∨
    ∃ cell, w.cell? c = some cell ∧ cell.dirty = true ∧ cell.suspended = true

/-- When nothing is in progress but an operation that is about to begin, no cell owes anything. -/
theorem Batched.not_owes (h : w.Batched c agenda)
    (hidle : ∀ task ∈ agenda, ∃ op, task = .operate op) : ¬w.Owes c agenda := by
  rintro (hany | ⟨cell, hcell, -, hsuspended⟩)
  · obtain ⟨task, htask, hbrings⟩ := List.any_eq_true.mp hany
    obtain ⟨op, rfl⟩ := hidle task htask
    cases hbrings
  · obtain ⟨always, hmem⟩ := h.suspended cell hcell hsuspended
    obtain ⟨op, heq⟩ := hidle _ hmem
    cases heq

theorem Owes.sweep (h : w.Owes c w.agenda) (hkept : ∀ cell, w.cell? c = some cell →
    w.sweep.cell? c = some cell) : w.sweep.Owes c w.sweep.agenda := by
  rw [sweep_agenda]
  exact h.imp_right fun ⟨cell, hcell, hnotes⟩ => ⟨cell, hkept cell hcell, hnotes⟩

theorem owes_push (w : Workspace) (htasks : tasks.any (Task.brings c) = true) :
    (w.push tasks).Owes c (w.push tasks).agenda := by
  refine .inl ?_
  rw [Workspace.push, List.any_append, htasks, Bool.true_or]

/-- A cell owes what it owed until it is invalidated. -/
theorem Owes.perform (h : w.Owes c (task :: w.agenda)) (hmakes : ¬w.Makes c task)
    (hagenda : ∃ tasks, (w.perform task).agenda = tasks ++ w.agenda)
    (hkept : .invalidated c ∉ w.deeds task) (hcell : w.cell? c = some cell)
    (hcell' : (w.perform task).cell? c = some cell') :
    (w.perform task).Owes c (w.perform task).agenda := by
  have hperform : ∀ driven, task = .cell c driven → w.perform task = w.performCell c cell driven :=
    fun driven heq => heq ▸ perform_cell hcell driven
  have hrest : w.agenda.any (Task.brings c) = true →
      (w.perform task).Owes c (w.perform task).agenda := by
    intro hany
    obtain ⟨tasks, heq⟩ := hagenda
    exact .inl (by rw [heq, List.any_append, hany, Bool.or_true])
  rcases h with hany | ⟨found, hfound, hdirty, hsuspended⟩
  · rw [List.any_cons, Bool.or_eq_true] at hany
    refine hany.elim (fun hbrings => ?_) hrest
    cases task with
    | cell c' driven =>
      cases driven with
      | refresh =>
        obtain rfl : c' = c := eq_of_beq hbrings
        rw [hperform _ rfl]
        exact owes_push _ (by simp [Task.brings])
      | invalidate =>
        obtain rfl : c' = c := eq_of_beq hbrings
        exact absurd (by simp [deeds, hcell]) hkept
      | endBatch outer always =>
        cases always with
        | true =>
          obtain rfl : c' = c := eq_of_beq hbrings
          rw [hperform _ rfl]
          exact owes_push _ (by simp [Task.brings])
        | false => cases hbrings
      | _ => cases hbrings
    | _ => cases hbrings
  · obtain rfl : cell = found := Option.some.inj (hcell.symm.trans hfound)
    by_cases hends : ∃ always, task = .cell c (.endBatch false always)
    · obtain ⟨always, rfl⟩ := hends
      rw [hperform _ rfl]
      exact owes_push _ (by simp [hdirty, Task.brings])
    · refine .inr ⟨cell', hcell', ?_⟩
      cases perform_alters hcell hmakes hcell' with
      | told => exact ⟨by simp [hdirty], hsuspended⟩
      | evaluate =>
        obtain ⟨hsame, hsame'⟩ := cell.begin_batch fun i => (w.inputValue i).isUnset
        exact ⟨hsame'.trans hdirty, hsame.trans hsuspended⟩
      | endBatch outer always =>
        cases outer with
        | true => exact ⟨hdirty, rfl⟩
        | false => exact absurd ⟨always, rfl⟩ hends
      | enter | edit | move => exact ⟨hdirty, rfl⟩
      | _ => exact ⟨hdirty, hsuspended⟩

/-- What makes the run of a cell out of date is going to invalidate the cell. -/
theorem owes_of_disturbed (h : .disturbed c ∈ w.deeds task) (hkept : .invalidated c ∉ w.deeds task) :
    (w.perform task).Owes c (w.perform task).agenda := by
  rcases disturbed_mem_deeds h with ⟨name, value, rfl, hinforms⟩ | ⟨scope, rfl⟩ |
    ⟨cell, hheld, hop⟩
  · show (w.tell value (.input c name)).Owes c (w.tell value (.input c name)).agenda
    unfold informs at hinforms
    unfold Workspace.tell
    simp only
    split
    · rename_i hnone
      simp [hnone] at hinforms
    rename_i cell hcell
    rw [hcell, Option.bind_some] at hinforms
    split
    · rename_i hnone
      simp [hnone] at hinforms
    rename_i i hi
    rw [hi, Option.any_some] at hinforms
    split
    · rename_i hsame
      rw [hsame] at hinforms
      cases hinforms
    split
    · rename_i hsuspended
      exact .inr ⟨_, cell?_putCell _ _ _, rfl, hsuspended⟩
    · exact owes_push _ (by simp [Task.brings])
  · rcases w.operate_setScope c scope with ⟨hnone, -⟩ | ⟨-, -, hdeeds, -⟩
    · rw [deeds, hnone] at h
      cases h
    · exact absurd (by simp [deeds, hdeeds]) hkept
  · have hheld' : ∀ f, w.onHeldCell c f = f cell := fun f => by rw [onHeldCell_eq, hheld]; rfl
    rcases hop with ⟨e, rfl⟩ | rfl | ⟨rfl, hstale⟩
    · show (w.onHeldCell c _).Owes c (w.onHeldCell c _).agenda
      rw [hheld']
      exact owes_push _ (by simp [Task.brings])
    · show (w.onHeldCell c _).Owes c (w.onHeldCell c _).agenda
      rw [hheld']
      exact owes_push _ (by simp [Task.brings])
    · show (w.onHeldCell c _).Owes c (w.onHeldCell c _).agenda
      rw [hheld', hstale]
      exact owes_push _ (by simp [Task.brings])

end Workspace

end MathCanvas
