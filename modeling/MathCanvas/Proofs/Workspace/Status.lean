import MathCanvas.Proofs.Expr.Targets
import MathCanvas.Proofs.Workspace.Alters
import MathCanvas.Proofs.Workspace.Integrity
import MathCanvas.Proofs.Workspace.Orderly

/-!
# The status of a cell

A run of a cell is at one place, and as long as it is, the cell has a plan and is evaluating. A cell
without a plan has a status that says why it has none (`Cell.Standing`). Both hold unless a task on
the agenda is going to give the cell a new status (`Task.Reopens`), so that they hold of every cell
when nothing is in progress (`Run.statusFits_of_quiet`).
-/

namespace MathCanvas

namespace Cell

variable {cell cell' : Cell}

/-- There is a plan that the cell can follow. -/
def Evaluable (cell : Cell) : Prop :=
  cell.scope ≠ none ∧ ∃ plan, Plan.ofExpr cell.expression = .ok (some plan)

/-- Why a cell has no plan. -/
inductive Standing (cell : Cell) : Prop
  | inert (status : cell.status = .inert)
      (nothing : cell.scope = none ∨ cell.expression.chain = [])
  | stale (status : cell.status = .stale) (manual : cell.automatic = false)
      (attached : cell.scope ≠ none) (chain : cell.expression.chain ≠ [])
  | malformed {error : CellError} (status : cell.status = .failed)
      (error_eq : cell.error = some error) (attached : cell.scope ≠ none)
      (wrong : Plan.ofExpr cell.expression = .error error)
  | waiting (status : cell.status = .waiting) (evaluable : cell.Evaluable)
  | done (status : cell.status = .done) (evaluable : cell.Evaluable)
  | failed {error : BackendError} (status : cell.status = .failed)
      (error_eq : cell.error = some (.backend error)) (evaluable : cell.Evaluable)

/-- A cell that cannot begin a run has a status that says why. -/
theorem begin_standing (cell : Cell) (unset : CellInput → Bool) :
    (cell.begin unset).1 = none ∧ (cell.begin unset).2.plan = none ∧
        (cell.begin unset).2.Standing ∨
      (cell.begin unset).1 = some (cell.begin unset).2.generation ∧
        (cell.begin unset).2.plan ≠ none ∧ (cell.begin unset).2.Evaluable := by
  unfold Cell.begin
  cases hscope : cell.scope with
  | none => exact .inl ⟨rfl, rfl, .inert rfl (.inl rfl)⟩
  | some s =>
    have hattached : some s ≠ none := Option.some_ne_none s
    simp only
    cases hplan : Plan.ofExpr cell.expression with
    | error e => exact .inl ⟨rfl, rfl, .malformed rfl rfl hattached hplan⟩
    | ok plan =>
      cases plan with
      | none => exact .inl ⟨rfl, rfl, .inert rfl (.inr (Plan.ofExpr_eq_none_iff.mp hplan))⟩
      | some plan =>
        simp only
        split
        · exact .inl ⟨rfl, rfl, .waiting rfl ⟨hattached, plan, hplan⟩⟩
        · exact .inr ⟨rfl, by simp, hattached, plan, hplan⟩

theorem standing_idle (hmanual : cell.automatic = false) :
    Standing { cell with status := cell.idleStatus } := by
  by_cases hattached : cell.scope = none
  · exact .inert (by simp [idleStatus, hattached]) (.inl hattached)
  by_cases hchain : cell.expression.chain = []
  · exact .inert (by simp [idleStatus, hchain]) (.inr hchain)
  refine .stale ?_ hmanual hattached hchain
  simp [idleStatus, hchain, Option.isSome_iff_ne_none.mpr hattached]

/-- The status of a cell that is not evaluating. -/
theorem Standing.congr (h : cell.Standing) (hexpression : cell'.expression = cell.expression)
    (hscope : cell'.scope = cell.scope) (hstatus : cell'.status = cell.status)
    (herror : cell'.error = cell.error)
    (hautomatic : cell.status = .stale → cell.automatic = false → cell'.automatic = false) :
    cell'.Standing := by
  have hevaluable : cell.Evaluable → cell'.Evaluable := by
    unfold Evaluable
    rw [hscope, hexpression]
    exact id
  cases h with
  | inert status nothing =>
    refine .inert (hstatus.trans status) ?_
    rwa [hscope, hexpression]
  | stale status manual attached chain =>
    refine .stale (hstatus.trans status) (hautomatic status manual) ?_ ?_
    · rwa [hscope]
    · rwa [hexpression]
  | malformed status error attached wrong =>
    refine .malformed (hstatus.trans status) (herror.trans error) ?_ ?_
    · rwa [hscope]
    · rwa [hexpression]
  | waiting status evaluable => exact .waiting (hstatus.trans status) (hevaluable evaluable)
  | done status evaluable => exact .done (hstatus.trans status) (hevaluable evaluable)
  | failed status error evaluable =>
    exact .failed (hstatus.trans status) (herror.trans error) (hevaluable evaluable)

/-- What the status of a cell means when nothing is in progress. -/
structure StatusFits (cell : Cell) : Prop where
  detached : cell.scope = none → cell.status = .inert
  stale : cell.status = .stale → cell.automatic = false
  inert : cell.scope ≠ none → cell.status ≠ .stale →
    (cell.status = .inert ↔ cell.expression.chain = [])
  /-- An assignment that does not name exactly one target is the only error of the cell's own. -/
  malformed : cell.scope ≠ none → cell.status ≠ .stale →
    ((cell.status = .failed ∧ ∀ error, cell.error ≠ some (.backend error)) ↔
      ∃ path target body, (path, EvaluableForm.assign target body) ∈ cell.expression.chain ∧
        target.targets.length ≠ 1)
  error : cell.status = .failed → ∀ error, Plan.ofExpr cell.expression = .error error →
    cell.error = some error
  active : cell.active ≠ none ↔ cell.status = .evaluating
  plan : cell.plan ≠ none ↔ cell.status = .evaluating

theorem Evaluable.chain_ne_nil (h : cell.Evaluable) : cell.expression.chain ≠ [] := by
  obtain ⟨-, plan, hplan⟩ := h
  intro hnil
  rw [Plan.ofExpr_eq_none_iff.mpr hnil] at hplan
  cases hplan

theorem Evaluable.not_malformed (h : cell.Evaluable) : ¬∃ path target body,
    (path, EvaluableForm.assign target body) ∈ cell.expression.chain ∧
      target.targets.length ≠ 1 := by
  obtain ⟨-, plan, hplan⟩ := h
  rw [← Plan.exists_ofExpr_eq_error_iff]
  rintro ⟨error, herror⟩
  rw [herror] at hplan
  cases hplan

/-- A cell that can follow a plan, and does so exactly while it is evaluating. -/
theorem Evaluable.statusFits (h : cell.Evaluable) (hinert : cell.status ≠ .inert)
    (hstale : cell.status ≠ .stale)
    (hfailed : cell.status = .failed → ∃ error, cell.error = some (.backend error))
    (hactive : cell.active ≠ none ↔ cell.status = .evaluating)
    (hplan : cell.plan ≠ none ↔ cell.status = .evaluating) : cell.StatusFits where
  detached hscope := absurd hscope h.1
  stale hstatus := absurd hstatus hstale
  inert _ _ := iff_of_false hinert h.chain_ne_nil
  malformed _ _ := by
    refine iff_of_false ?_ h.not_malformed
    rintro ⟨hstatus, herror⟩
    obtain ⟨error, hbackend⟩ := hfailed hstatus
    exact herror error hbackend
  error _ error herror :=
    absurd (Plan.exists_ofExpr_eq_error_iff.mp ⟨error, herror⟩) h.not_malformed
  active := hactive
  plan := hplan

/-- An inert chain has no assignment on it. -/
theorem not_malformed_of_nil (h : cell.expression.chain = []) : ¬∃ path target body,
    (path, EvaluableForm.assign target body) ∈ cell.expression.chain ∧
      target.targets.length ≠ 1 := by
  simp [h]

theorem Standing.statusFits (h : cell.Standing) (hactive : cell.active = none)
    (hplan : cell.plan = none) : cell.StatusFits := by
  have hidle : cell.status ≠ .evaluating → (cell.active ≠ none ↔ cell.status = .evaluating) ∧
      (cell.plan ≠ none ↔ cell.status = .evaluating) := fun hstatus =>
    ⟨iff_of_false (not_not.mpr hactive) hstatus, iff_of_false (not_not.mpr hplan) hstatus⟩
  cases h with
  | inert status nothing =>
    obtain ⟨hactive, hplan⟩ := hidle (by simp [status])
    refine ⟨fun _ => status, by simp [status], fun hattached _ => ?_, fun hattached _ => ?_,
      by simp [status], hactive, hplan⟩
    · exact iff_of_true status (nothing.resolve_left hattached)
    · exact iff_of_false (by simp [status]) (not_malformed_of_nil (nothing.resolve_left hattached))
  | stale status manual attached chain =>
    obtain ⟨hactive, hplan⟩ := hidle (by simp [status])
    exact ⟨fun hscope => absurd hscope attached, fun _ => manual, fun _ hne => absurd status hne,
      fun _ hne => absurd status hne, by simp [status], hactive, hplan⟩
  | @malformed error status error_eq attached wrong =>
    obtain ⟨hactive, hplan⟩ := hidle (by simp [status])
    refine ⟨fun hscope => absurd hscope attached, by simp [status], fun _ _ => ?_, fun _ _ => ?_,
      fun _ error' herror => ?_, hactive, hplan⟩
    · refine iff_of_false (by simp [status]) fun hnil => ?_
      rw [Plan.ofExpr_eq_none_iff.mpr hnil] at wrong
      cases wrong
    · refine iff_of_true ⟨status, fun backend herror => ?_⟩
        (Plan.exists_ofExpr_eq_error_iff.mp ⟨error, wrong⟩)
      rw [error_eq, Option.some.injEq] at herror
      exact Plan.stagesOf_ne_backend (Plan.ofExpr_eq_error_iff.mp (herror ▸ wrong))
    · rw [error_eq, Except.error.inj (wrong.symm.trans herror)]
  | waiting status evaluable =>
    obtain ⟨hactive, hplan⟩ := hidle (by simp [status])
    exact evaluable.statusFits (by simp [status]) (by simp [status]) (by simp [status]) hactive
      hplan
  | done status evaluable =>
    obtain ⟨hactive, hplan⟩ := hidle (by simp [status])
    exact evaluable.statusFits (by simp [status]) (by simp [status]) (by simp [status]) hactive
      hplan
  | @failed error status error_eq evaluable =>
    obtain ⟨hactive, hplan⟩ := hidle (by simp [status])
    exact evaluable.statusFits (by simp [status]) (by simp [status]) (fun _ => ⟨error, error_eq⟩)
      hactive hplan

end Cell

/-- Whether a task is going to give a cell a new status, after everything else that it leads to. -/
def Task.Reopens (c : CellId) (task : Task) : Prop :=
  task.resumes c = true ∨ task = .cell c .refresh ∨
    (∃ outer, task = .cell c (.endBatch outer true)) ∨ ∃ scope, task = .cell c (.enter scope)

namespace Workspace

variable {w w' : Workspace} {c : CellId} {cell cell' : Cell} {task : Task}
  {tasks agenda : List Task} {past : List Event} {backend : Backend}

/-- The cell has a plan as long as its run is somewhere, and otherwise a status that says why it has
none, or it is going to get a new status. -/
structure Described (c : CellId) (agenda : List Task) (cell : Cell) : Prop where
  /-- A cell is invalidated only in order to evaluate it again. -/
  resumed : .cell c .invalidate ∈ agenda → agenda.any (Task.resumes c) = true
  plan_iff : cell.plan = none ↔ places c agenda cell = 0
  standing : (∃ task ∈ agenda, task.Reopens c) ∨ cell.Fitting ∧
    (cell.plan = none → cell.Standing) ∧ (cell.plan ≠ none → cell.Evaluable)

/-- The cell, if it is there, is described. -/
def Describes (w : Workspace) (c : CellId) (agenda : List Task) : Prop :=
  ∀ cell, w.cell? c = some cell → Described c agenda cell

theorem reopens_of_resumes (hresumes : agenda.any (Task.resumes c) = true) :
    ∃ task ∈ agenda, task.Reopens c := by
  obtain ⟨task, hmem, htask⟩ := List.any_eq_true.mp hresumes
  exact ⟨task, hmem, .inl htask⟩

/-- The run of a generation that is over is nowhere. -/
theorem places_eq_zero (h : Orderly c (task :: agenda) cell) (htasks : Idle c tasks)
    (hgeneration : cell'.generation = cell.generation + 1) (hactive : cell'.active = none) :
    places c (tasks ++ agenda) cell' = 0 := by
  rw [Orderly.places_append htasks, places, hactive, hgeneration, countP_eq_zero_of_not_mem]
  · rfl
  · intro hmem
    have hle := h.generation (List.mem_cons_of_mem _ hmem)
    omega

theorem Vacant.places_eq_zero (h : Vacant c agenda cell.generation) (hactive : cell.active = none) :
    places c agenda cell = 0 := by
  rw [places, h.run, hactive]
  rfl

namespace Described

/-- The first task is not the one that gives the cell a new status. -/
theorem reopens_append (h : ∃ task' ∈ task :: agenda, task'.Reopens c) (htask : ¬task.Reopens c)
    (tasks : List Task) : ∃ task ∈ tasks ++ agenda, task.Reopens c := by
  obtain ⟨found, hmem, hfound⟩ := h
  refine ⟨found, List.mem_append_right _ ((List.mem_cons.mp hmem).resolve_left ?_), hfound⟩
  rintro rfl
  exact htask hfound

/-- The cell is going to get a new status. -/
theorem of_reopens (hinvalidate : .cell c .invalidate ∉ agenda)
    (hplan : cell.plan = none ↔ places c agenda cell = 0) (hmem : task ∈ agenda)
    (hreopens : task.Reopens c) : Described c agenda cell :=
  ⟨fun hin => absurd hin hinvalidate, hplan, .inl ⟨task, hmem, hreopens⟩⟩

/-- The run of the cell is where it was before. -/
theorem plan_iff_append (h : Described c (task :: agenda) cell)
    (hadvance : task ≠ .cell c (.advance cell.generation))
    (htasks : .cell c (.advance cell.generation) ∉ tasks) (hsame : cell'.plan = cell.plan ∧
      cell'.active = cell.active ∧ cell'.generation = cell.generation) :
    cell'.plan = none ↔ places c (tasks ++ agenda) cell' = 0 := by
  have hplaces : places c (tasks ++ agenda) cell' = places c (task :: agenda) cell := by
    rw [Orderly.places_cons hadvance, places, places, hsame.2.1, hsame.2.2, List.countP_append,
      countP_eq_zero_of_not_mem htasks, Nat.zero_add]
  rw [hsame.1, hplaces]
  exact h.plan_iff

/-- The first task is none of those of the cell's runs, nor are those that it leaves behind. -/
theorem pop (h : Described c (task :: agenda) cell) (hresumes : task.resumes c = false)
    (hadvance : task ≠ .cell c (.advance cell.generation)) (htasks : Idle c tasks)
    (hsame : cell'.SameRun cell)
    (hstanding : (∃ task ∈ tasks ++ agenda, task.Reopens c) ∨
      ¬task.Reopens c ∧ cell'.scope = cell.scope ∧ (cell.Standing → cell'.Standing)) :
    Described c (tasks ++ agenda) cell' where
  resumed hmem := by
    have hlater := (List.mem_append.mp hmem).resolve_left (htasks.not_mem rfl)
    have hany := h.resumed (List.mem_cons_of_mem _ hlater)
    rw [List.any_cons, hresumes, Bool.false_or] at hany
    rw [List.any_append, hany, Bool.or_true]
  plan_iff := h.plan_iff_append hadvance (htasks.not_mem rfl)
    ⟨hsame.plan, hsame.active, hsame.generation⟩
  standing := by
    rcases hstanding with hreopens | ⟨htask, hscope, hstanding⟩
    · exact .inl hreopens
    refine h.standing.imp (fun hreopens => reopens_append hreopens htask tasks) ?_
    rintro ⟨hfits, hrest, hrun⟩
    refine ⟨hsame.fitting hfits, fun hplan => hstanding (hrest (hsame.plan ▸ hplan)), ?_⟩
    rw [hsame.plan, Cell.Evaluable, hscope, hsame.expression]
    exact hrun

end Described

namespace Describes

theorem putCell (tasks : List Task) (h : Described c (tasks ++ w.agenda) cell) :
    ((w.putCell c cell).push tasks).Describes c (tasks ++ w.agenda) := by
  intro found hfound
  have hlookup : (w.putCell c cell).cell? c = some found := hfound
  rw [cell?_putCell, Option.some.injEq] at hlookup
  exact hlookup ▸ h

/-- A cell that is to enter a scope, or that ends a batch, goes on to a refresh. -/
theorem perform_of_reopens (hcell : w.cell? c = some cell) (htask : task.Reopens c)
    (hresumes : task.resumes c = false) : ∃ task' ∈ (w.perform task).agenda, task'.Reopens c := by
  rcases htask with hresuming | rfl | ⟨outer, rfl⟩ | ⟨scope, rfl⟩
  · rw [hresumes] at hresuming
    cases hresuming
  · rw [perform_cell hcell]
    refine ⟨.cell c .reconsider, List.mem_cons_of_mem _ List.mem_cons_self, .inl ?_⟩
    simp [Task.resumes]
  · rw [perform_cell hcell]
    exact ⟨.cell c .refresh, List.mem_cons_self, .inr (.inl rfl)⟩
  · rw [perform_cell hcell]
    exact ⟨_, List.mem_cons_of_mem _ List.mem_cons_self, .inr (.inr (.inl ⟨cell.suspended, rfl⟩))⟩

/-- Nothing happens. -/
theorem keep (h : w.Describes c (task :: w.agenda)) (htask : task.drives c = false)
    (hreopens : ¬task.Reopens c) : w.Describes c w.agenda := by
  intro cell hcell
  exact (h cell hcell).pop (Task.resumes_of_idle htask) (Task.ne_of_idle htask rfl) idle_nil
    (.refl cell) (.inr ⟨hreopens, rfl, fun hstanding => hstanding⟩)

/-- A cell that leaves its scope is going to enter another one, or to stay without one. -/
theorem setScope {scope : Option ScopeId}
    (h : w.Describes c (.operate (.setScope c scope) :: w.agenda))
    (horder : w.InOrder c (.operate (.setScope c scope) :: w.agenda)) :
    (w.operate (.setScope c scope)).2.Describes c (w.operate (.setScope c scope)).2.agenda := by
  have hkeep : w.Describes c w.agenda := h.keep rfl (by simp [Task.Reopens, Task.resumes])
  show (w.onHeldCell c _).Describes c (w.onHeldCell c _).agenda
  unfold Workspace.onHeldCell Workspace.onCell
  split
  swap
  · exact hkeep
  split
  swap
  · exact hkeep
  rename_i cell hcell
  have horderly := horder cell hcell
  split
  swap
  · exact hkeep
  unfold Workspace.setScope
  simp only
  split
  · exact hkeep
  simp only [List.append_assoc]
  have hidle : Idle c (cancelTasks cell.active ++
      (cell.inputs.values.map (fun i => Task.removeReader i.scope i.reader) ++
        (cell.outputs.values.map (fun o => Task.removeDefinition o.scope o.slot) ++
          [.cell c (.enter scope), .releaseCell c]))) := by
    simp [idle_cancelTasks, Task.drives, CellTask.drives]
  have hreopens : (Task.cell c (.enter scope)).Reopens c := .inr (.inr (.inr ⟨scope, rfl⟩))
  refine putCell _ (.of_reopens (fun hmem => ?_) ?_ ?_ hreopens)
  · exact (List.mem_append.mp hmem).elim (hidle.not_mem rfl) horderly.invalidate
  · exact iff_of_true rfl (places_eq_zero horderly hidle rfl rfl)
  · simp

/-- A cell reconsiders: it evaluates, or takes note that it is out of date. -/
theorem reconsider (h : w.Describes c (.cell c .reconsider :: w.agenda))
    (horder : w.InOrder c (.cell c .reconsider :: w.agenda)) :
    (w.perform (.cell c .reconsider)).Describes c (w.perform (.cell c .reconsider)).agenda := by
  cases hcell : w.cell? c with
  | none =>
    rw [perform_cell_of_none hcell]
    intro cell hfound
    rw [hcell] at hfound
    cases hfound
  | some cell =>
  have horderly := horder cell hcell
  have hresumes : (Task.cell c .reconsider).resumes c = true := by simp [Task.resumes]
  have hplaces := horderly.places_of_resumes hresumes
  have hplan := (h cell hcell).plan_iff.mpr hplaces
  rw [Orderly.places_cons (by simp)] at hplaces
  rw [perform_cell hcell]
  unfold Workspace.performCell
  simp only
  split
  · intro found hfound
    cases Option.some.inj (hfound.symm.trans hcell)
    have hreopens : (Task.cell c .evaluate).Reopens c := .inl (by simp [Task.resumes])
    refine .of_reopens (fun hmem => ?_) (iff_of_true hplan ?_) List.mem_cons_self hreopens
    · exact horderly.invalidate ((List.mem_cons.mp hmem).resolve_left (by simp))
    · show places c (.cell c .evaluate :: w.agenda) cell = 0
      rwa [Orderly.places_cons (by simp)]
  · rename_i hmanual
    refine putCell [] ⟨fun hmem => absurd hmem horderly.invalidate, ?_, .inr ⟨?_, fun _ => ?_, ?_⟩⟩
    · exact iff_of_true hplan hplaces
    · exact Cell.fitting_of_plan_eq_none hplan
    · exact Cell.standing_idle (by simpa using hmanual)
    · exact fun hsome => absurd hplan hsome

/-- A cell begins a run, or has a status that says why it does not. -/
theorem evaluate (hcell : w.cell? c = some cell)
    (horder : w.InOrder c (.cell c .evaluate :: w.agenda)) :
    let begun := cell.begin fun i => (w.inputValue i).isUnset
    let tasks := begun.1.toList.map fun g => Task.cell c (.advance g)
    ((w.putCell c begun.2).push tasks).Describes c (tasks ++ w.agenda) := by
  intro begun tasks
  have horderly := horder cell hcell
  obtain ⟨hgeneration, hactive, -⟩ := cell.begin_run fun i => (w.inputValue i).isUnset
  have hnone := hactive.trans (horderly.active_of_resumes (by simp [Task.resumes]))
  have hfits := (cell.begin_fitting fun i => (w.inputValue i).isUnset).2
  have hplaces := places_eq_zero horderly idle_nil hgeneration hnone
  rcases cell.begin_standing fun i => (w.inputValue i).isUnset with
    ⟨hrun, hplan, hstanding⟩ | ⟨hrun, hplan, hevaluable⟩
  · have htasks : tasks = [] := by simp [tasks, begun, hrun]
    rw [htasks]
    refine putCell [] ⟨fun hmem => absurd hmem horderly.invalidate, iff_of_true hplan hplaces,
      .inr ⟨hfits, fun _ => hstanding, fun hsome => absurd hplan hsome⟩⟩
  · have htasks : tasks = [.cell c (.advance begun.2.generation)] := by simp [tasks, begun, hrun]
    rw [htasks]
    refine putCell _ ⟨fun hmem => ?_, iff_of_false hplan ?_,
      .inr ⟨hfits, fun hnone => absurd hnone hplan, fun _ => hevaluable⟩⟩
    · exact absurd ((List.mem_cons.mp hmem).resolve_left (by simp)) horderly.invalidate
    · rw [List.singleton_append, places, List.countP_cons_of_pos (Task.advances_iff.mpr rfl)]
      omega

/-- The value of a stage is recorded, and the run goes on. -/
theorem complete (cell : Cell) {plan : Plan} {generation : Nat} (hvacant : Vacant c w.agenda generation)
    (hgeneration : cell.generation = generation) (hplan : cell.plan = some plan)
    (hstanding : (∃ task ∈ w.agenda, task.Reopens c) ∨ cell.Fitting ∧ cell.Evaluable)
    (value : Expr) (hmore : Idle c tasks) :
    ((w.putCell c (cell.complete plan value).2).push <|
      (cell.complete plan value).1.toList.map (fun o => Task.write o.scope o.slot (.defined value))
        ++ .cell c (.advance generation) :: tasks).Describes c
      ((cell.complete plan value).1.toList.map (fun o => Task.write o.scope o.slot (.defined value))
        ++ .cell c (.advance generation) :: tasks ++ w.agenda) := by
  have hwrites : Idle c ((cell.complete plan value).1.toList.map
      fun o => Task.write o.scope o.slot (.defined value)) := by
    simp [Task.drives]
  refine putCell _ ⟨fun hmem => ?_, iff_of_false (by simp [Cell.complete]) ?_, ?_⟩
  · simp only [List.append_assoc, List.cons_append, List.mem_append, List.mem_cons] at hmem
    rcases hmem with hmem | hmem | hmem | hmem
    · exact absurd hmem (hwrites.not_mem rfl)
    · cases hmem
    · exact absurd hmem (hmore.not_mem rfl)
    · exact absurd hmem hvacant.invalidate
  · have hadvance : (Task.cell c (.advance generation)).advances c
        (cell.complete plan value).2.generation = true := Task.advances_iff.mpr (hgeneration ▸ rfl)
    rw [List.append_assoc, places, List.countP_append, List.cons_append,
      List.countP_cons_of_pos hadvance]
    omega
  · refine hstanding.imp ?_ ?_
    · rintro ⟨task, hmem, htask⟩
      exact ⟨task, List.mem_append_right _ hmem, htask⟩
    · rintro ⟨hfits, hevaluable⟩
      obtain ⟨hblanked, hfits'⟩ := hfits.complete hplan value
      refine ⟨hfits', fun hnone => absurd hnone (by simp [Cell.complete]), fun _ => ?_⟩
      rw [Cell.Evaluable, Plan.ofExpr_congr hblanked]
      exact hevaluable

/-- A cell goes on with its run. -/
theorem advance {generation : Nat} (h : w.Describes c (.cell c (.advance generation) :: w.agenda))
    (horder : w.InOrder c (.cell c (.advance generation) :: w.agenda))
    (hcell : w.cell? c = some cell) :
    (w.advance c cell generation).Describes c (w.advance c cell generation).agenda := by
  have hdescribed := h cell hcell
  have hnot : ¬(Task.cell c (.advance generation)).Reopens c := by
    simp [Task.Reopens, Task.resumes]
  unfold Workspace.advance
  split
  · rename_i hother
    intro found hfound
    cases Option.some.inj (hfound.symm.trans hcell)
    exact hdescribed.pop rfl (by simpa using Ne.symm hother) idle_nil (.refl _)
      (.inr ⟨hnot, rfl, fun hstanding => hstanding⟩)
  rename_i hgeneration
  rw [not_not] at hgeneration
  subst hgeneration
  obtain ⟨hvacant, hactive⟩ := (horder cell hcell).vacant_of_advance
  obtain ⟨plan, hplan⟩ : ∃ plan, cell.plan = some plan := by
    refine Option.ne_none_iff_exists'.mp fun hnone => ?_
    have hplaces := hdescribed.plan_iff.mp hnone
    rw [places, List.countP_cons_of_pos (Task.advances_iff.mpr rfl)] at hplaces
    omega
  have hsome : cell.plan ≠ none := by
    rw [hplan]
    exact Option.some_ne_none plan
  have hstanding : (∃ task ∈ w.agenda, task.Reopens c) ∨ cell.Fitting ∧ cell.Evaluable :=
    hdescribed.standing.imp (fun hreopens => Described.reopens_append hreopens hnot [])
      fun hrest => ⟨hrest.1, hrest.2.2 hsome⟩
  rw [hplan]
  simp only
  split
  · refine putCell [] ⟨fun hmem => absurd hmem hvacant.invalidate,
      iff_of_true rfl (Vacant.places_eq_zero hvacant hactive), hstanding.imp_right fun hrest => ?_⟩
    exact ⟨Cell.fitting_of_plan_eq_none rfl, fun _ => .done rfl hrest.2,
      fun hsome => absurd rfl hsome⟩
  · rename_i e hnext
    have hidle : Idle c ((w.backend.onDispatch w.nextCommand ⟨c, w.definedInputs cell, e⟩).map
        .operate) := by simp [Task.drives]
    refine putCell (w := w) _ ⟨fun hmem => ?_, iff_of_false hsome ?_, ?_⟩
    · exact absurd hmem fun hmem => (List.mem_append.mp hmem).elim (hidle.not_mem rfl)
        hvacant.invalidate
    · simp [places]
    · refine hstanding.imp ?_ fun hrest =>
        ⟨hrest.1, fun hnone => absurd hnone hsome, fun _ => hrest.2⟩
      rintro ⟨task, hmem, htask⟩
      exact ⟨task, List.mem_append_right _ hmem, htask⟩
  · exact complete cell hvacant rfl hplan hstanding _ idle_nil

/-- The active command is answered: the run goes on, or the cell has failed. -/
theorem receive {op : Op} {id : CommandId} (h : w.Describes c (.operate op :: w.agenda))
    (horder : w.InOrder c (.operate op :: w.agenda)) (hcell : w.cell? c = some cell)
    (hactive : cell.active = some id) (outcome : Outcome) :
    (w.receive id c outcome).Describes c (w.receive id c outcome).agenda := by
  have hdescribed := h cell hcell
  have hsome : cell.active ≠ none := by
    rw [hactive]
    exact Option.some_ne_none id
  have hvacant := (horder cell hcell).vacant_of_active rfl hsome
  obtain ⟨plan, hplan⟩ : ∃ plan, cell.plan = some plan := by
    refine Option.ne_none_iff_exists'.mp fun hnone => ?_
    have hplaces := hdescribed.plan_iff.mp hnone
    rw [places, hactive, Option.toList_some, List.length_singleton] at hplaces
    omega
  have hstanding : (∃ task ∈ w.agenda, task.Reopens c) ∨ cell.Fitting ∧ cell.Evaluable := by
    have hnot : ¬(Task.operate op).Reopens c := by simp [Task.Reopens, Task.resumes]
    refine hdescribed.standing.imp (fun hreopens => Described.reopens_append hreopens hnot [])
      fun hrest => ⟨hrest.1, hrest.2.2 ?_⟩
    rw [hplan]
    exact Option.some_ne_none plan
  unfold Workspace.receive
  rw [hcell]
  simp only [hactive, ne_eq, not_true_eq_false, if_false]
  cases outcome with
  | error e =>
    refine putCell [] ⟨fun hmem => absurd hmem hvacant.invalidate,
      iff_of_true rfl (Vacant.places_eq_zero hvacant rfl), hstanding.imp_right fun hrest => ?_⟩
    exact ⟨Cell.fitting_of_plan_eq_none rfl, fun _ => .failed rfl rfl hrest.2,
      fun hsome => absurd rfl hsome⟩
  | ok value =>
    simp only [hplan]
    have hidle : Idle c [.releaseCell c] := by simp [Task.drives]
    exact complete { cell with active := none } hvacant rfl hplan hstanding value hidle

/-- A cell that is told to evaluate by itself does so if it is stale. -/
theorem awake_or_same (hcell : w.cell? c = some cell) (hstale : cell.status = .stale) :
    (w.perform (.operate (.setAutomatic c true))).cell? c = some cell ∨
      (w.perform (.operate (.setAutomatic c true))).agenda =
        [.cell c .evaluate, .releaseCell c] ++ w.agenda := by
  show (w.onHeldCell c _).cell? c = some cell ∨ (w.onHeldCell c _).agenda = _
  unfold Workspace.onHeldCell Workspace.onCell
  split
  · rw [hcell]
    simp [hstale, Workspace.push, Workspace.putCell]
  · exact .inl hcell

/-- A task that leaves the run of a cell alone also leaves alone what its status depends on, or the
cell is going to get a new one. -/
theorem perform_standing (hcell : w.cell? c = some cell)
    (hcell' : (w.perform task).cell? c = some cell') (hmakes : ¬w.Makes c task)
    (hidle : task.drives c = false) (hleaves : w.Leaves c (w.perform task))
    (hsame : cell'.SameRun cell) (hscope : ∀ scope, task ≠ .operate (.setScope c scope)) :
    (∃ task' ∈ (w.perform task).agenda, task'.Reopens c) ∨
      ¬task.Reopens c ∧ cell'.scope = cell.scope ∧ (cell.Standing → cell'.Standing) := by
  by_cases hreopens : task.Reopens c
  · exact .inl (perform_of_reopens hcell hreopens (Task.resumes_of_idle hidle))
  refine .inr ⟨hreopens, ?_⟩
  have hstanding : cell'.scope = cell.scope → cell'.error = cell.error →
      (cell.status = .stale → cell.automatic = false → cell'.automatic = false) →
      cell'.scope = cell.scope ∧ (cell.Standing → cell'.Standing) :=
    fun hscope herror hautomatic => ⟨hscope, fun hbefore =>
      hbefore.congr hsame.expression hscope hsame.status herror hautomatic⟩
  have halters := perform_alters hcell hmakes hcell'
  cases halters with
  | same | told | synchronize | keepOutput | addInput | edit | move =>
    exact hstanding rfl rfl fun _ hmanual => hmanual
  | invalidate | rest | evaluate | finish | send | assign =>
    simp [Task.drives, CellTask.drives] at hidle
  | fail e hactive | drop hactive | answer value hactive => exact absurd hsame.active.symm hactive
  | enter scope => exact absurd (.inr (.inr (.inr ⟨scope, rfl⟩))) hreopens
  | endBatch outer always =>
    unfold Cell.resumed at hstanding ⊢
    split <;> exact ⟨rfl, fun hbefore => hbefore.congr rfl rfl rfl rfl fun _ hmanual => hmanual⟩
  | unregister scope => exact absurd rfl (hscope scope)
  | automate automatic =>
    refine hstanding rfl rfl fun hstale hmanual => ?_
    by_contra hautomatic
    have htrue : automatic = true := by simpa using hautomatic
    subst htrue
    rcases awake_or_same hcell hstale with hfound | hagenda
    · rw [hcell'] at hfound
      exact hautomatic ((congrArg Cell.automatic (Option.some.inj hfound)).trans hmanual)
    · obtain ⟨tasks, hagenda', htasks⟩ := hleaves.agenda
      rw [hagenda] at hagenda'
      have hmem : .cell c .evaluate ∈ tasks := by
        rw [← List.append_cancel_right hagenda']
        exact List.mem_cons_self
      exact htasks.not_mem rfl hmem

/-- A new cell has no scope, unless it is going to enter one. -/
theorem newCell {position : Position} {expression : Expr} {scope : Option ScopeId}
    {automatic : Bool} (hunborn : w.Unborn w.nextCell
      (.operate (.newCell position expression scope automatic) :: w.agenda)) :
    (w.operate (.newCell position expression scope automatic)).2.Describes w.nextCell
      (w.operate (.newCell position expression scope automatic)).2.agenda := by
  have hstanding : ∀ found, (w.operate (.newCell position expression scope automatic)).2.cell?
      w.nextCell = some found → found.scope = none ∧ found.status = .inert := by
    let made : Workspace :=
      { w with nextCell := w.nextCell + 1, heldCells := w.heldCells ++ [w.nextCell] }
    let cell : Cell := { expression, position, automatic }
    show ∀ found, ((made.putCell w.nextCell cell).setScope w.nextCell cell
      (scope.filter w.heldScopes.contains)).cell? w.nextCell = some found → _
    intro found hfound
    unfold Workspace.setScope at hfound
    split at hfound
    · cases Option.some.inj ((cell?_putCell made w.nextCell cell).symm.trans hfound)
      exact ⟨rfl, rfl⟩
    · cases Option.some.inj ((cell?_putCell (made.putCell w.nextCell cell) w.nextCell
        cell.unregistered).symm.trans hfound)
      exact ⟨rfl, rfl⟩
  obtain ⟨-, -, -, cell, tasks, hcell, hactive, hplan, -, hagenda, htasks⟩ :=
    w.operate_newCell position expression scope automatic
  intro found hfound
  obtain ⟨hscope, hstatus⟩ := hstanding found hfound
  cases Option.some.inj (hfound.symm.trans hcell)
  have hidle : Idle w.nextCell (tasks ++ w.agenda) :=
    idle_append.mpr ⟨htasks, (idle_cons.mp hunborn.idle).2⟩
  rw [hagenda]
  refine ⟨fun hmem => absurd hmem (hidle.not_mem rfl), iff_of_true hplan ?_, .inr ⟨?_, ?_, ?_⟩⟩
  · rw [places, hidle.countP_advances, hactive]
    rfl
  · exact Cell.fitting_of_plan_eq_none hplan
  · exact fun _ => .inert hstatus (.inl hscope)
  · exact fun hsome => absurd hplan hsome

/-- One task keeps the cell described. -/
theorem perform (h : w.Describes c (task :: w.agenda)) (hsettled : w.Settled c (task :: w.agenda)) :
    (w.perform task).Describes c (w.perform task).agenda := by
  by_cases hmakes : w.Makes c task
  · obtain ⟨rfl, position, expression, scope, automatic, rfl⟩ := hmakes
    exact newCell (hsettled.unborn (Nat.le_refl _))
  have horder := hsettled.inOrder
  by_cases hscope : ∃ scope, task = .operate (.setScope c scope)
  · obtain ⟨scope, rfl⟩ := hscope
    exact h.setScope horder
  push Not at hscope
  have hturn := perform_turn hmakes
  generalize hperform : w.perform task = w' at hturn ⊢
  cases hturn with
  | leave hidle hleaves =>
    intro cell' hcell'
    obtain ⟨cell, hcell, hsame⟩ := hleaves.cell hcell'
    have hidle' := hidle.resolve_right (by rw [hcell]; exact Option.some_ne_none _)
    subst hperform
    have hstanding := perform_standing hcell hcell' hmakes hidle' hleaves hsame hscope
    obtain ⟨tasks, hagenda, htasks⟩ := hleaves.agenda
    rw [hagenda] at hstanding ⊢
    exact (h cell hcell).pop (Task.resumes_of_idle hidle') (Task.ne_of_idle hidle' rfl) htasks hsame
      hstanding
  | @renew cell _ next more hcell hidle hnext hmore =>
    intro found hfound
    cases Option.some.inj (hfound.symm.trans hcell)
    have hresumes : (Task.cell c next).resumes c = true := by
      rcases hnext with rfl | rfl <;> simp [Task.resumes]
    have hany : (.cell c .invalidate :: .cell c next :: more ++ w.agenda : List Task).any
        (Task.resumes c) = true := by
      simp [hresumes]
    refine ⟨fun _ => hany, ?_, .inl (reopens_of_resumes hany)⟩
    refine (h _ hcell).plan_iff_append (Task.ne_of_idle hidle rfl) (fun hmem => ?_) ⟨rfl, rfl, rfl⟩
    simp only [List.mem_cons, Task.cell.injEq, true_and] at hmem
    rcases hmem with hmem | hmem | hmem
    · cases hmem
    · rcases hnext with rfl | rfl <;> cases hmem
    · exact hmore.not_mem rfl hmem
  | @invalidate cell hcell =>
    have horderly := horder cell hcell
    have hidle : Idle c (cancelTasks cell.active ++
        cell.outputs.values.map fun o => Task.write o.scope o.slot .unset) := by
      simp [idle_cancelTasks, Task.drives]
    refine putCell _ ⟨fun hmem => ?_, iff_of_true rfl (places_eq_zero horderly hidle rfl rfl),
      .inl (reopens_of_resumes ?_)⟩
    · exact absurd hmem fun hmem => (List.mem_append.mp hmem).elim (hidle.not_mem rfl)
        horderly.invalidate
    · have hany := (h cell hcell).resumed List.mem_cons_self
      rw [List.any_cons] at hany
      rw [List.any_append, Bool.or_eq_true]
      exact .inr hany
  | reconsider hcell | rest hcell =>
    rw [← hperform]
    exact h.reconsider horder
  | evaluate hcell => exact evaluate hcell horder
  | advance hcell => exact h.advance horder hcell
  | @answer op id cell outcome hcell hactive hanswers =>
    have hcancelled : ({ w with commands := w.commands.cancel id } : Workspace).Describes c
      (.operate op :: w.agenda) := h
    exact hcancelled.receive horder hcell hactive outcome
  | unregister hcell => exact absurd rfl (hscope _)
  | @edit cell expression hcell =>
    let tasks : List Task := [.cell c .synchronize, .cell c (.endBatch cell.suspended true),
      .releaseCell c]
    have hreopens : (Task.cell c (.endBatch cell.suspended true)).Reopens c :=
      .inr (.inr (.inl ⟨cell.suspended, rfl⟩))
    have hput : ((w.putCell c { cell with expression, suspended := true }).push tasks).Describes c
        (tasks ++ w.agenda) := by
      refine putCell tasks (.of_reopens (fun hmem => ?_) ?_ ?_ hreopens)
      · exact (horder cell hcell).invalidate
          ((List.mem_append.mp hmem).resolve_left (by simp [tasks]))
      · exact (h cell hcell).plan_iff_append (by simp) (by simp [tasks]) ⟨rfl, rfl, rfl⟩
      · simp [tasks]
    exact hput
  | @awake cell hcell hstale =>
    have hreopens : (Task.cell c .evaluate).Reopens c := .inl (by simp [Task.resumes])
    refine putCell _ (.of_reopens (fun hmem => ?_) ?_ List.mem_cons_self hreopens)
    · exact (horder cell hcell).invalidate ((List.mem_append.mp hmem).resolve_left (by simp))
    · exact (h cell hcell).plan_iff_append (by simp) (by simp) ⟨rfl, rfl, rfl⟩

end Describes

/-! ### Runs -/

theorem Describes.sweep (h : w.Describes c w.agenda) : w.sweep.Describes c w.sweep.agenda := by
  obtain ⟨cells, tree, heq, hcells⟩ := w.exists_sweep_eq
  rw [heq]
  exact fun cell hcell => h cell (hcells hcell)

theorem Describes.call (h : w.Describes c w.agenda) (hquiet : w.agenda = []) (op : Op) :
    (w.call op).Describes c (w.call op).agenda := by
  rw [hquiet] at h
  intro cell hcell
  obtain ⟨-, hplan, hstanding⟩ := h cell hcell
  have hidle : Idle c [.operate op] := by simp [Task.drives]
  refine ⟨fun hmem => absurd hmem (hidle.not_mem rfl), ?_, .inr (hstanding.resolve_left (by simp))⟩
  rw [hplan]
  exact Iff.of_eq (congrArg (· = 0) (Orderly.places_append hidle).symm)

/-- As long as no cell begins a run during a refresh of it, every cell is described. -/
theorem Run.describes (h : Run (fun w => w.reenters = false) { backend } past w) (c : CellId) :
    w.Describes c w.agenda := by
  induction h with
  | refl =>
    intro cell hcell
    simp [cell?] at hcell
  | call op _ hquiet ih => exact ih.call hquiet op
  | @step past w hrun hreenters ih =>
    cases hagenda : w.agenda with
    | nil =>
      rw [Workspace.step, hagenda]
      exact ih
    | cons task rest =>
      rw [step_of_agenda hagenda]
      rw [hagenda] at ih
      have hpopped : ({ w with agenda := rest } : Workspace).Describes c (task :: rest) := ih
      exact (hpopped.perform ((hrun.settled c).pop hagenda)).sweep

/-- When nothing is in progress, the status of every cell says what it means, and a cell has a plan
and an active command exactly while it is evaluating; as long as no cell begins a run during a
refresh of it. -/
theorem Run.statusFits_of_quiet (h : Run (fun w => w.reenters = false) { backend } past w)
    (hquiet : w.agenda = []) (hcell : w.cell? c = some cell) : cell.StatusFits := by
  obtain ⟨-, hplan, hstanding⟩ := h.describes c cell hcell
  have horderly := (h.settled c).inOrder cell hcell
  rw [hquiet] at hplan hstanding horderly
  obtain ⟨-, hrest, hrun⟩ := hstanding.resolve_left (by simp)
  have hplaces : places c [] cell = cell.active.toList.length := by
    rw [places, List.countP_nil, Nat.zero_add]
  cases hactive : cell.active with
  | none =>
    have hnone : cell.plan = none := hplan.mpr (by rw [hplaces, hactive]; rfl)
    exact (hrest hnone).statusFits hactive hnone
  | some id =>
    have hsome : cell.active ≠ none := by
      rw [hactive]
      exact Option.some_ne_none id
    have hplanned : cell.plan ≠ none := by
      rw [ne_eq, hplan, hplaces, hactive]
      exact Nat.one_ne_zero
    have hstatus := horderly.active hsome
    exact (hrun hplanned).statusFits (by simp [hstatus]) (by simp [hstatus]) (by simp [hstatus])
      (iff_of_true hsome hstatus) (iff_of_true hplanned hstatus)

/-- A cell that is to assign to two names at once has failed. -/
theorem statusFits_two_targets :
    let pair : Expr := .app "List" [.symbol "x", .symbol "y"]
    let made := (({ backend := .recording } : Workspace).call
      (.newCell .origin (.app "Assign" [pair, .string "value"]) (some 0) true)).settle 18
    ∃ cell, made.cell? 0 = some cell ∧ cell.status = .failed ∧
      cell.error = some (.multipleTargets ["x", "y"]) ∧ cell.StatusFits := by
  intro pair made
  have hmade : Run (fun w => w.reenters = false) { backend := .recording } [] made :=
    (Run.refl.call _ rfl).settle (by decide +kernel)
  have hquiet : made.agenda = [] := by decide +kernel
  obtain ⟨cell, hcell, hfailed⟩ : ∃ cell, made.cell? 0 = some cell ∧ cell.status = .failed ∧
      cell.error = some (.multipleTargets ["x", "y"]) := by
    have hfound : (made.cell? 0).any (fun cell => decide (cell.status = .failed ∧
        cell.error = some (.multipleTargets ["x", "y"]))) = true := by decide +kernel
    obtain ⟨cell, hcell, hfound⟩ := (Option.any_eq_true _ _).mp hfound
    exact ⟨cell, hcell, of_decide_eq_true hfound⟩
  clear_value made
  exact ⟨cell, hcell, hfailed.1, hfailed.2, hmade.statusFits_of_quiet hquiet hcell⟩

/-- A status says why the cell has no plan, but not that this is still so. Moving the cell `x := 5`
to the front binds two readers of `x` anew. The first of them lets `w` change, so that `r := x + w`
is evaluated before it is told about its `x`, which is unset at that moment; when it is told, the
value is the one that it remembers. It stays waiting although both of its inputs are defined. -/
theorem waits_for_defined_inputs :
    let five : Expr := .number ⟨0x4014000000000000⟩
    let quotient : Expr := .app "Divide" [.number ⟨0x3ff0000000000000⟩, .number (.zero false)]
    let place (y : UInt64) : Position := ⟨.zero false, ⟨y⟩⟩
    let define (w : Workspace) (y : UInt64) (name : String) (body : Expr) : Workspace :=
      (w.apply (.newCell (place y) (.app "Assign" [.symbol name, body]) (some 0) true)).2
    let w := define { backend := .immediate } 0 "x" quotient
    let w := define w 0x4000000000000000 "u" (.symbol "x")
    let w := define w 0x4008000000000000 "w" (.symbol "u")
    let w := define w 0x4010000000000000 "x" (.symbol "u")
    let w := define w 0x4018000000000000 "x" five
    let w := define w 0x401c000000000000 "r" (.app "Add" [.symbol "x", .symbol "w"])
    let w := (w.apply (.setPosition 4 (place 0x3ff0000000000000))).2
    w.agenda = [] ∧ (w.cell? 5).map (·.status) = some .waiting ∧
      (w.cell? 5).map w.definedInputs = some [("w", five), ("x", five)] := by
  decide +kernel

end Workspace

end MathCanvas
