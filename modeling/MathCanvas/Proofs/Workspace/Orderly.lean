import MathCanvas.Proofs.Workspace.Runs

/-!
# Runs of cells in order

A cell that is refreshed is invalidated first, then its outputs are cleared, and at last it is
evaluated. What listens to the outputs may do anything in between. If it makes the cell begin
another run (`Workspace.reenters`), then there are two runs of one cell in progress. As long as this
does not happen, every cell stays `Orderly`: its run is at one place, which is either a task on the
agenda or the active command, and there is none at all between invalidating and evaluating.
-/

namespace MathCanvas

/-- Whether a task is the second half of a refresh. -/
def Task.resumes (c : CellId) : Task → Bool
  | .cell c' .reconsider | .cell c' .evaluate => c' == c
  | _ => false

/-- Whether a task goes on with the run of a generation. -/
def Task.advances (c : CellId) (generation : Nat) : Task → Bool
  | .cell c' (.advance g) => c' == c && g == generation
  | _ => false

section Idle

variable {c : CellId} {generation : Nat} {task : Task} {tasks : List Task}

theorem Task.resumes_of_idle (h : task.drives c = false) : task.resumes c = false := by
  cases task with
  | cell c' task => cases task <;> simp_all [Task.drives, CellTask.drives, Task.resumes]
  | _ => rfl

theorem Task.advances_of_idle (h : task.drives c = false) : task.advances c generation = false := by
  cases task with
  | cell c' task => cases task <;> simp_all [Task.drives, CellTask.drives, Task.advances]
  | _ => rfl

theorem Task.ne_of_idle (h : task.drives c = false) {driven : CellTask}
    (hdriven : driven.drives = true) : task ≠ .cell c driven := by
  rintro rfl
  simp [Task.drives, hdriven] at h

theorem Task.advances_iff :
    task.advances c generation = true ↔ task = .cell c (.advance generation) := by
  cases task with
  | cell c' task => cases task <;> simp [Task.advances]
  | _ => simp [Task.advances]

theorem Idle.any_resumes (h : Idle c tasks) : tasks.any (Task.resumes c) = false :=
  List.any_eq_false.mpr fun task htask => by simp [Task.resumes_of_idle (h task htask)]

theorem Idle.countP_advances (h : Idle c tasks) : tasks.countP (Task.advances c generation) = 0 :=
  List.countP_eq_zero.mpr fun task htask => by simp [Task.advances_of_idle (h task htask)]

theorem Idle.not_mem (h : Idle c tasks) {task : CellTask} (htask : task.drives = true) :
    .cell c task ∉ tasks :=
  fun hmem => by simpa [Task.drives, htask] using h _ hmem

end Idle

/-- A value can only be assigned after it was computed. -/
theorem Plan.next_ne_assign (plan : Plan) (h : plan.carried = none) {e value : Expr}
    {target : String} : plan.next e ≠ .assign target value := by
  unfold Plan.next
  split
  · simp
  · rw [h]
    simp only
    split <;> simp_all

theorem Cell.begin_run (cell : Cell) (unset : CellInput → Bool) :
    (cell.begin unset).2.generation = cell.generation + 1 ∧
      (cell.begin unset).2.active = cell.active ∧
      ((cell.begin unset).1 = none ∨ (cell.begin unset).1 = some (cell.begin unset).2.generation ∧
        ∀ plan ∈ (cell.begin unset).2.plan, plan.carried = none) := by
  unfold Cell.begin
  cases cell.scope with
  | none => exact ⟨rfl, rfl, .inl rfl⟩
  | some s =>
    simp only
    cases hplan : Plan.ofExpr cell.expression with
    | error e => exact ⟨rfl, rfl, .inl rfl⟩
    | ok plan =>
      cases plan with
      | none => exact ⟨rfl, rfl, .inl rfl⟩
      | some plan =>
        simp only
        split
        · exact ⟨rfl, rfl, .inl rfl⟩
        · refine ⟨rfl, rfl, .inr ⟨rfl, ?_⟩⟩
          rintro _ ⟨⟩
          unfold Plan.ofExpr at hplan
          split at hplan
          · cases hplan
          · cases hstages : Plan.stagesOf cell.expression.chain.reverse with
            | error e => simp [hstages, Except.map] at hplan
            | ok stages =>
              rw [hstages] at hplan
              cases hplan
              rfl

namespace Workspace

variable {w w' w₀ : Workspace} {c : CellId} {cell cell' : Cell} {tasks agenda : List Task}
  {task : Task} {past : List Event} {backend : Backend}

/-- Whether a task begins a run of a cell while a refresh of this cell is still in progress. -/
def reentry (w : Workspace) (later : List Task) : Task → Bool
  | .cell c .evaluate =>
    later.any (Task.resumes c) &&
      (w.cell? c).any fun cell => (cell.begin fun i => (w.inputValue i).isUnset).1.isSome
  | _ => false

/-- Whether the next task begins a run of a cell during a refresh of this cell. -/
def reenters (w : Workspace) : Bool :=
  match w.agenda with
  | [] => false
  | task :: later => w.reentry later task

/-- The number of places where the run of a cell is. -/
def places (c : CellId) (agenda : List Task) (cell : Cell) : Nat :=
  agenda.countP (Task.advances c cell.generation) + cell.active.toList.length

/-- The run of a cell is at one place, and nowhere during a refresh. -/
structure Orderly (c : CellId) (agenda : List Task) (cell : Cell) : Prop where
  /-- A cell is invalidated before anything else happens. -/
  invalidate : .cell c .invalidate ∉ agenda.tail
  generation : ∀ {g : Nat}, .cell c (.advance g) ∈ agenda → g ≤ cell.generation
  place : places c agenda cell ≤ 1
  refreshing : agenda.any (Task.resumes c) = true →
    agenda.head? = some (.cell c .invalidate) ∨ places c agenda cell = 0
  active : cell.active ≠ none → cell.status = .evaluating
  /-- The status is set when the first command is sent. -/
  advancing : .cell c (.advance cell.generation) ∈ agenda → cell.status = .evaluating ∨
    agenda.head? = some (.cell c (.advance cell.generation)) ∧
      ∀ plan ∈ cell.plan, plan.carried = none

theorem countP_eq_zero_of_not_mem {g : Nat} (h : .cell c (.advance g) ∉ agenda) :
    agenda.countP (Task.advances c g) = 0 :=
  List.countP_eq_zero.mpr fun _ htask hadvances => h (Task.advances_iff.mp hadvances ▸ htask)

theorem not_mem_of_countP_eq_zero {g : Nat} (h : agenda.countP (Task.advances c g) = 0) :
    .cell c (.advance g) ∉ agenda :=
  fun hmem => List.countP_eq_zero.mp h _ hmem (Task.advances_iff.mpr rfl)

namespace Orderly

/-- No run is in progress. -/
theorem of_resting (hinvalidate : .cell c .invalidate ∉ agenda)
    (hgeneration : ∀ {g : Nat}, .cell c (.advance g) ∈ agenda → g ≤ cell.generation)
    (hplace : places c agenda cell = 0) : Orderly c agenda cell where
  invalidate hmem := hinvalidate (List.mem_of_mem_tail hmem)
  generation := hgeneration
  place := by omega
  refreshing _ := .inr hplace
  active hactive := by
    obtain ⟨id, hid⟩ := Option.ne_none_iff_exists'.mp hactive
    simp [places, hid] at hplace
  advancing hmem := by
    refine absurd hmem (not_mem_of_countP_eq_zero ?_)
    unfold places at hplace
    omega

/-- A run is in progress, and no refresh. -/
theorem of_running (hinvalidate : .cell c .invalidate ∉ agenda)
    (hgeneration : ∀ {g : Nat}, .cell c (.advance g) ∈ agenda → g ≤ cell.generation)
    (hplace : places c agenda cell ≤ 1) (hresumes : agenda.any (Task.resumes c) = false)
    (hstatus : cell.status = .evaluating) : Orderly c agenda cell where
  invalidate hmem := hinvalidate (List.mem_of_mem_tail hmem)
  generation := hgeneration
  place := hplace
  refreshing hany := by rw [hresumes] at hany; cases hany
  active _ := hstatus
  advancing _ := .inl hstatus

theorem congr (h : Orderly c agenda cell) (hplan : cell'.plan = cell.plan)
    (hactive : cell'.active = cell.active) (hgeneration : cell'.generation = cell.generation)
    (hstatus : cell'.status = cell.status) : Orderly c agenda cell' := by
  have hplaces : places c agenda cell' = places c agenda cell := by
    rw [places, places, hactive, hgeneration]
  constructor
  · exact h.invalidate
  · rw [hgeneration]
    exact h.generation
  · rw [hplaces]
    exact h.place
  · rw [hplaces]
    exact h.refreshing
  · rw [hactive, hstatus]
    exact h.active
  · rw [hgeneration, hstatus, hplan]
    exact h.advancing

theorem places_append (htasks : Idle c tasks) :
    places c (tasks ++ agenda) cell = places c agenda cell := by
  rw [places, places, List.countP_append, htasks.countP_advances, Nat.zero_add]

theorem places_cons (htask : task ≠ .cell c (.advance cell.generation)) :
    places c (task :: agenda) cell = places c agenda cell := by
  rw [places, places, List.countP_cons_of_neg fun h => htask (Task.advances_iff.mp h)]

theorem status_of_mem (h : Orderly c (task :: agenda) cell)
    (htask : task ≠ .cell c (.advance cell.generation))
    (hmem : .cell c (.advance cell.generation) ∈ agenda) : cell.status = .evaluating := by
  refine (h.advancing (List.mem_cons_of_mem _ hmem)).resolve_right fun hfirst => htask ?_
  exact Option.some.inj hfirst.1

/-- A task that neither invalidates the cell nor goes on with its run gives way to tasks that take
no part in the runs of the cell. -/
theorem pop (h : Orderly c (task :: agenda) cell) (hinvalidate : task ≠ .cell c .invalidate)
    (hadvance : task ≠ .cell c (.advance cell.generation)) (htasks : Idle c tasks) :
    Orderly c (tasks ++ agenda) cell where
  invalidate hmem := by
    rcases List.mem_append.mp (List.mem_of_mem_tail hmem) with hmem | hmem
    · exact htasks.not_mem rfl hmem
    · exact h.invalidate hmem
  generation {g} hmem := by
    rcases List.mem_append.mp hmem with hmem | hmem
    · exact absurd hmem (htasks.not_mem rfl)
    · exact h.generation (List.mem_cons_of_mem _ hmem)
  place := by
    have hplace := h.place
    rwa [places_cons hadvance, ← places_append htasks] at hplace
  refreshing hany := by
    rw [List.any_append, htasks.any_resumes, Bool.false_or] at hany
    have hold := h.refreshing (by rw [List.any_cons, hany, Bool.or_true])
    have hplace := hold.resolve_left fun hhead => hinvalidate (Option.some.inj hhead)
    exact .inr (by rwa [places_cons hadvance, ← places_append htasks] at hplace)
  active := h.active
  advancing hmem := by
    rcases List.mem_append.mp hmem with hmem | hmem
    · exact absurd hmem (htasks.not_mem rfl)
    · exact .inl (h.status_of_mem hadvance hmem)

/-- A refresh is about to begin. -/
theorem renew (h : Orderly c (task :: agenda) cell) (hidle : task.drives c = false)
    {next : CellTask} (hnext : next = .reconsider ∨ next = .evaluate) (htasks : Idle c tasks) :
    Orderly c (.cell c .invalidate :: .cell c next :: tasks ++ agenda) cell := by
  have hdriven : ∀ {driven : CellTask}, driven.drives = true → task ≠ .cell c driven :=
    Task.ne_of_idle hidle
  have hkept := h.pop (hdriven rfl) (hdriven rfl) htasks
  have hmem : ∀ {g : Nat}, .cell c (.advance g) ∈
      (.cell c .invalidate :: .cell c next :: tasks ++ agenda : List Task) →
      .cell c (.advance g) ∈ tasks ++ agenda := by
    rcases hnext with rfl | rfl <;> simp
  have hplaces : places c (.cell c .invalidate :: .cell c next :: tasks ++ agenda) cell
      = places c (tasks ++ agenda) cell := by
    rcases hnext with rfl | rfl <;>
      rw [List.cons_append, List.cons_append, places_cons (by simp), places_cons (by simp)]
  constructor
  · intro hin
    rcases List.mem_cons.mp hin with heq | hin
    · rcases hnext with rfl | rfl <;> cases heq
    · exact (List.mem_append.mp hin).elim (htasks.not_mem rfl) h.invalidate
  · exact fun hin => hkept.generation (hmem hin)
  · exact hplaces ▸ hkept.place
  · exact fun _ => .inl rfl
  · exact h.active
  · intro hin
    refine .inl (h.status_of_mem (hdriven rfl) ?_)
    exact (List.mem_append.mp (hmem hin)).resolve_left (htasks.not_mem rfl)

/-- The run ends, and the next one has a number of its own. -/
theorem renumber (h : Orderly c (task :: agenda) cell) (htasks : Idle c tasks)
    (hgeneration : cell'.generation = cell.generation + 1) (hactive : cell'.active = none) :
    Orderly c (tasks ++ agenda) cell' := by
  have hle : ∀ {g : Nat}, .cell c (.advance g) ∈ tasks ++ agenda → g ≤ cell.generation := by
    intro g hmem
    rcases List.mem_append.mp hmem with hmem | hmem
    · exact absurd hmem (htasks.not_mem rfl)
    · exact h.generation (List.mem_cons_of_mem _ hmem)
  refine of_resting (fun hmem => ?_) (fun hmem => (hle hmem).trans (by omega)) ?_
  · exact (List.mem_append.mp hmem).elim (htasks.not_mem rfl) h.invalidate
  · unfold places
    rw [hactive, hgeneration, countP_eq_zero_of_not_mem fun hmem => absurd (hle hmem) (by omega)]
    rfl

/-- A cell that is about to reconsider or to evaluate has no run. -/
theorem places_of_resumes (h : Orderly c (task :: agenda) cell) (htask : task.resumes c = true) :
    places c (task :: agenda) cell = 0 := by
  refine (h.refreshing (by rw [List.any_cons, htask, Bool.true_or])).resolve_left fun hhead => ?_
  rw [List.head?_cons, Option.some.injEq] at hhead
  rw [hhead] at htask
  cases htask

/-- Nor has one that never sent a command, and that does not go on at this moment. -/
theorem places_of_status (h : Orderly c (task :: agenda) cell)
    (htask : task ≠ .cell c (.advance cell.generation)) (hstatus : cell.status ≠ .evaluating) :
    places c (task :: agenda) cell = 0 := by
  have hactive : cell.active = none := by
    by_contra hsome
    exact hstatus (h.active hsome)
  rw [places_cons htask, places, hactive, countP_eq_zero_of_not_mem fun hmem => ?_]
  · rfl
  · exact hstatus (h.status_of_mem htask hmem)

theorem active_of_resumes (h : Orderly c (task :: agenda) cell) (htask : task.resumes c = true) :
    cell.active = none := by
  have hplaces := h.places_of_resumes htask
  unfold places at hplaces
  cases hactive : cell.active with
  | none => rfl
  | some id => simp [hactive] at hplaces

/-- The rest of the agenda of a cell that has no run. -/
theorem of_places (h : Orderly c (task :: agenda) cell)
    (hplaces : places c (task :: agenda) cell = 0)
    {more : List Task} (hmore : ∀ task ∈ more, task ≠ .cell c .invalidate ∧
      ∀ g, task ≠ .cell c (.advance g))
    (hgeneration : cell'.generation = cell.generation) (hactive : cell'.active = cell.active) :
    Orderly c (more ++ agenda) cell' := by
  have hcount : more.countP (Task.advances c cell.generation) = 0 :=
    countP_eq_zero_of_not_mem fun hmem => (hmore _ hmem).2 _ rfl
  refine of_resting (fun hmem => ?_) (fun {g} hmem => ?_) ?_
  · rcases List.mem_append.mp hmem with hmem | hmem
    · exact (hmore _ hmem).1 rfl
    · exact h.invalidate hmem
  · rw [hgeneration]
    rcases List.mem_append.mp hmem with hmem | hmem
    · exact absurd rfl ((hmore _ hmem).2 g)
    · exact h.generation (List.mem_cons_of_mem _ hmem)
  · unfold places at hplaces ⊢
    rw [List.countP_cons] at hplaces
    rw [hgeneration, hactive, List.countP_append, hcount]
    omega

/-- A run begins. -/
theorem begin (h : Orderly c (.cell c .evaluate :: agenda) cell)
    (hresumes : agenda.any (Task.resumes c) = false)
    (hgeneration : cell'.generation = cell.generation + 1) (hactive : cell'.active = cell.active)
    (hcarried : ∀ plan ∈ cell'.plan, plan.carried = none) :
    Orderly c (.cell c (.advance cell'.generation) :: agenda) cell' := by
  have hnone : cell'.active = none := hactive.trans (h.active_of_resumes (by simp [Task.resumes]))
  have hrest : Orderly c ([] ++ agenda) cell' := h.renumber idle_nil hgeneration hnone
  have hcount : agenda.countP (Task.advances c cell'.generation) = 0 := by
    refine countP_eq_zero_of_not_mem fun hmem => ?_
    have hle := h.generation (List.mem_cons_of_mem _ hmem)
    omega
  constructor
  · exact h.invalidate
  · intro g hmem
    rcases List.mem_cons.mp hmem with heq | hmem
    · cases heq
      exact Nat.le_refl _
    · exact hrest.generation hmem
  · rw [places, List.countP_cons_of_pos (Task.advances_iff.mpr rfl), hcount, hnone]
    exact Nat.le_refl 1
  · intro hany
    rw [List.any_cons, hresumes] at hany
    cases hany
  · exact fun hsome => absurd hnone hsome
  · exact fun _ => .inr ⟨rfl, hcarried⟩

end Orderly

/-- On the agenda, there is neither the run of a generation nor a refresh. -/
structure Vacant (c : CellId) (agenda : List Task) (generation : Nat) : Prop where
  invalidate : .cell c .invalidate ∉ agenda
  earlier : ∀ {g : Nat}, .cell c (.advance g) ∈ agenda → g ≤ generation
  run : agenda.countP (Task.advances c generation) = 0
  resumes : agenda.any (Task.resumes c) = false

theorem Orderly.vacant_of_advance
    (h : Orderly c (.cell c (.advance cell.generation) :: agenda) cell) :
    Vacant c agenda cell.generation ∧ cell.active = none := by
  have hplace := h.place
  unfold places at hplace
  rw [List.countP_cons_of_pos (Task.advances_iff.mpr rfl)] at hplace
  refine ⟨⟨h.invalidate, fun hmem => h.generation (List.mem_cons_of_mem _ hmem), by omega, ?_⟩, ?_⟩
  · rw [Bool.eq_false_iff]
    intro hany
    rcases h.refreshing (by rw [List.any_cons, hany, Bool.or_true]) with hhead | hplaces
    · cases hhead
    · rw [places, List.countP_cons_of_pos (Task.advances_iff.mpr rfl)] at hplaces
      omega
  · cases hactive : cell.active with
    | none => rfl
    | some id =>
      rw [hactive, Option.toList_some, List.length_singleton] at hplace
      omega

theorem Orderly.vacant_of_active (h : Orderly c (task :: agenda) cell)
    (hidle : task.drives c = false) (hactive : cell.active ≠ none) :
    Vacant c agenda cell.generation := by
  obtain ⟨id, hid⟩ := Option.ne_none_iff_exists'.mp hactive
  have hdriven : ∀ {driven : CellTask}, driven.drives = true → task ≠ .cell c driven :=
    Task.ne_of_idle hidle
  have hplace := h.place
  rw [Orderly.places_cons (hdriven rfl), places, hid, Option.toList_some,
    List.length_singleton] at hplace
  refine ⟨h.invalidate, fun hmem => h.generation (List.mem_cons_of_mem _ hmem), by omega, ?_⟩
  rw [Bool.eq_false_iff]
  intro hany
  rcases h.refreshing (by rw [List.any_cons, hany, Bool.or_true]) with hhead | hplaces
  · exact hdriven rfl (Option.some.inj hhead)
  · rw [places, hid, Option.toList_some, List.length_singleton] at hplaces
    omega

namespace Vacant

variable {generation : Nat}

theorem append (h : Vacant c agenda generation) (htasks : Idle c tasks) :
    Vacant c (tasks ++ agenda) generation where
  invalidate hmem := (List.mem_append.mp hmem).elim (htasks.not_mem rfl) h.invalidate
  earlier hmem := h.earlier ((List.mem_append.mp hmem).resolve_left (htasks.not_mem rfl))
  run := by rw [List.countP_append, htasks.countP_advances, h.run]
  resumes := by rw [List.any_append, htasks.any_resumes, h.resumes, Bool.or_false]

/-- The run is over. -/
theorem ended (h : Vacant c agenda generation) (hgeneration : cell.generation = generation)
    (hactive : cell.active = none) : Orderly c agenda cell := by
  subst hgeneration
  exact .of_resting h.invalidate h.earlier (by rw [places, h.run, hactive]; rfl)

/-- The run waits for a command. -/
theorem sent (h : Vacant c agenda generation) (hgeneration : cell.generation = generation)
    (hstatus : cell.status = .evaluating) : Orderly c agenda cell := by
  subst hgeneration
  refine .of_running h.invalidate h.earlier ?_ h.resumes hstatus
  rw [places, h.run, Nat.zero_add]
  exact Option.length_toList_le

/-- The run goes on. -/
theorem goes_on (h : Vacant c agenda generation) (hgeneration : cell.generation = generation)
    (hactive : cell.active = none) (hstatus : cell.status = .evaluating) (htasks : Idle c tasks) :
    Orderly c (tasks ++ .cell c (.advance generation) :: agenda) cell := by
  subst hgeneration
  have hmem : ∀ {task : CellTask}, task.drives = true →
      .cell c task ∈ tasks ++ .cell c (.advance cell.generation) :: agenda →
      task = .advance cell.generation ∨ .cell c task ∈ agenda := by
    intro task hdrives hmem
    rcases List.mem_append.mp hmem with hmem | hmem
    · exact absurd hmem (htasks.not_mem hdrives)
    · exact (List.mem_cons.mp hmem).imp_left fun heq => (Task.cell.inj heq).2
  refine .of_running (fun hin => ?_) (fun {g} hin => ?_) ?_ ?_ hstatus
  · exact (hmem rfl hin).elim nofun h.invalidate
  · exact (hmem rfl hin).elim (fun heq => (CellTask.advance.inj heq).le) h.earlier
  · rw [places, List.countP_append, htasks.countP_advances,
      List.countP_cons_of_pos (Task.advances_iff.mpr rfl), h.run, hactive]
    exact Nat.le_refl 1
  · rw [List.any_append, htasks.any_resumes, List.any_cons, h.resumes]
    rfl

end Vacant

/-- The cell of the given number, if it is there, is in order. -/
def InOrder (w : Workspace) (c : CellId) (agenda : List Task) : Prop :=
  ∀ cell, w.cell? c = some cell → Orderly c agenda cell

namespace InOrder

theorem putCell (tasks : List Task) (h : Orderly c (tasks ++ w.agenda) cell) :
    ((w.putCell c cell).push tasks).InOrder c (tasks ++ w.agenda) := by
  intro found hfound
  have hlookup : (w.putCell c cell).cell? c = some found := hfound
  rw [cell?_putCell, Option.some.injEq] at hlookup
  exact hlookup ▸ h

/-- The value of a stage is recorded, and the run goes on. -/
theorem complete (cell : Cell) {generation : Nat} (h : Vacant c w.agenda generation)
    (hgeneration : cell.generation = generation) (hactive : cell.active = none)
    (hstatus : cell.status = .evaluating) (plan : Plan) (value : Expr) (hmore : Idle c tasks) :
    ((w.putCell c (cell.complete plan value).2).push <|
      (cell.complete plan value).1.toList.map (fun o => Task.write o.scope o.slot (.defined value))
        ++ .cell c (.advance generation) :: tasks).InOrder c
      ((cell.complete plan value).1.toList.map (fun o => Task.write o.scope o.slot (.defined value))
        ++ .cell c (.advance generation) :: tasks ++ w.agenda) := by
  refine putCell _ ?_
  rw [List.append_assoc]
  refine (h.append hmore).goes_on hgeneration hactive hstatus ?_
  simp [Task.drives]

theorem advance {generation : Nat} (h : w.InOrder c (.cell c (.advance generation) :: w.agenda))
    (hcell : w.cell? c = some cell) :
    (w.advance c cell generation).InOrder c (w.advance c cell generation).agenda := by
  have horderly := h cell hcell
  unfold Workspace.advance
  split
  · rename_i hother
    intro found hfound
    rw [hcell, Option.some.injEq] at hfound
    subst hfound
    exact horderly.pop (by simp) (by simpa using Ne.symm hother) idle_nil
  · rename_i hgeneration
    rw [not_not] at hgeneration
    subst hgeneration
    obtain ⟨hvacant, hactive⟩ := horderly.vacant_of_advance
    split
    · intro found hfound
      rw [hcell, Option.some.injEq] at hfound
      subst hfound
      exact hvacant.ended rfl hactive
    · rename_i plan hplan
      split
      · exact putCell [] (hvacant.ended rfl hactive)
      · refine putCell _ ((hvacant.append ?_).sent rfl rfl)
        simp [Task.drives]
      · rename_i target value hnext
        have hstatus : cell.status = .evaluating := by
          refine (horderly.advancing List.mem_cons_self).resolve_right fun hfirst => ?_
          exact plan.next_ne_assign (hfirst.2 plan hplan) hnext
        exact complete cell hvacant rfl hactive hstatus plan value idle_nil

theorem receive {id : CommandId} {op : Op} (h : w.InOrder c (.operate op :: w.agenda))
    (hcell : w.cell? c = some cell) (hactive : cell.active = some id) (outcome : Outcome) :
    (w.receive id c outcome).InOrder c (w.receive id c outcome).agenda := by
  have hsome : cell.active ≠ none := by rw [hactive]; exact Option.some_ne_none _
  have hvacant := (h cell hcell).vacant_of_active rfl hsome
  have hstatus := (h cell hcell).active hsome
  unfold Workspace.receive
  rw [hcell]
  simp only [hactive, ne_eq, not_true_eq_false, if_false]
  split
  · exact putCell [] (hvacant.ended rfl rfl)
  · split
    · exact putCell [] (hvacant.ended rfl rfl)
    · have hrelease : Idle c [.releaseCell c] := by simp [Task.drives]
      exact complete { cell with active := none } hvacant rfl rfl hstatus _ _ hrelease

/-- One task keeps the cell in order, unless it begins a run during a refresh. -/
theorem perform (h : w.InOrder c (task :: w.agenda)) (hmakes : ¬w.Makes c task)
    (hreentry : w.reentry w.agenda task = false) :
    (w.perform task).InOrder c (w.perform task).agenda := by
  have hturn := perform_turn hmakes
  generalize w.perform task = w' at hturn ⊢
  cases hturn with
  | leave hidle hleaves =>
    intro cell' hcell'
    obtain ⟨cell, hcell, hsame⟩ := hleaves.cell hcell'
    obtain ⟨tasks, hagenda, htasks⟩ := hleaves.agenda
    have hidle := hidle.resolve_right (by rw [hcell]; exact Option.some_ne_none _)
    have hpop := (h cell hcell).pop (Task.ne_of_idle hidle rfl) (Task.ne_of_idle hidle rfl) htasks
    exact hagenda ▸ hpop.congr hsame.plan hsame.active hsame.generation hsame.status
  | @renew before _ next more hcell hidle hnext hmore =>
    intro cell hcell
    exact (h cell hcell).renew hidle hnext hmore
  | invalidate hcell =>
    refine putCell _ ((h _ hcell).renumber ?_ rfl rfl)
    simp [idle_cancelTasks, Task.drives]
  | @reconsider before hcell =>
    intro cell hcell
    have horderly := h cell hcell
    have hplaces := horderly.places_of_resumes (by simp [Task.resumes])
    have hmore : ∀ task ∈ [Task.cell c .evaluate], task ≠ .cell c .invalidate ∧
        ∀ g, task ≠ .cell c (.advance g) := by simp
    exact horderly.of_places hplaces hmore rfl rfl
  | @rest cell hcell =>
    have horderly := h cell hcell
    have hplaces := horderly.places_of_resumes (by simp [Task.resumes])
    exact putCell [] (horderly.of_places hplaces (by simp) rfl rfl)
  | @evaluate cell hcell =>
    have horderly := h cell hcell
    obtain ⟨hgeneration, hactive, hrun⟩ := cell.begin_run fun i => (w.inputValue i).isUnset
    rcases hrun with hnone | ⟨hsome, hcarried⟩
    · rw [hnone]
      refine putCell [] (horderly.renumber idle_nil hgeneration ?_)
      rw [hactive]
      exact horderly.active_of_resumes (by simp [Task.resumes])
    · have hresumes : w.agenda.any (Task.resumes c) = false := by
        rw [reentry, hcell, Option.any_some, hsome, Option.isSome_some, Bool.and_true] at hreentry
        exact hreentry
      rw [hsome]
      exact putCell _ (horderly.begin hresumes hgeneration hactive hcarried)
  | advance hcell => exact advance h hcell
  | @answer op id cell outcome hcell hactive hanswers =>
    have hcancelled : ({ w with commands := w.commands.cancel id } : Workspace).InOrder c
      (.operate op :: w.agenda) := h
    exact hcancelled.receive hcell hactive outcome
  | unregister hcell hmore =>
    refine putCell _ ((h _ hcell).renumber ?_ rfl rfl)
    simp [idle_cancelTasks, hmore]
  | @edit cell expression hcell =>
    have hpop := (h cell hcell).pop (by simp) (by simp)
      (by simp [Task.drives, CellTask.drives] : Idle c [.cell c .synchronize,
        .cell c (.endBatch cell.suspended true), .releaseCell c])
    intro found hfound
    have hlookup : (w.putCell c { cell with expression, suspended := true }).cell? c
      = some found := hfound
    rw [cell?_putCell, Option.some.injEq] at hlookup
    subst hlookup
    exact hpop.congr rfl rfl rfl rfl
  | @awake cell hcell hstale =>
    have horderly := h cell hcell
    have hplaces := horderly.places_of_status (by simp) (by rw [hstale]; simp)
    exact putCell _ (horderly.of_places hplaces (by simp) rfl rfl)

end InOrder

/-! ### Runs without re-entry -/

/-- Nothing is known of the cell of a number that is not given yet. -/
structure Unborn (w : Workspace) (c : CellId) (agenda : List Task) : Prop where
  cell : w.cell? c = none
  idle : Idle c agenda
  command : ∀ {id : CommandId} {command : Command}, w.commands.find? id = some command →
    command.cell ≠ c

theorem Orderly.of_unborn (hidle : Idle c agenda) (hactive : cell.active = none) :
    Orderly c agenda cell :=
  .of_resting (hidle.not_mem rfl) (fun hmem => absurd hmem (hidle.not_mem rfl))
    (by rw [places, hidle.countP_advances, hactive]; rfl)

/-- The cell is in order, or is still to be made. -/
structure Settled (w : Workspace) (c : CellId) (agenda : List Task) : Prop where
  inOrder : w.InOrder c agenda
  unborn : w.nextCell ≤ c → w.Unborn c agenda

theorem Unborn.perform (h : w.Unborn c (task :: w.agenda)) (hmakes : ¬w.Makes c task) :
    (w.perform task).Unborn c (w.perform task).agenda := by
  have hturn := perform_turn hmakes
  generalize w.perform task = w' at hturn ⊢
  cases hturn with
  | leave hidle hleaves =>
    refine ⟨?_, ?_, fun hfind heq => h.command (hleaves.command hfind heq) heq⟩
    · by_contra hcell
      obtain ⟨cell', hcell'⟩ := Option.ne_none_iff_exists'.mp hcell
      obtain ⟨cell, hcell, -⟩ := hleaves.cell hcell'
      rw [h.cell] at hcell
      cases hcell
    · obtain ⟨tasks, hagenda, htasks⟩ := hleaves.agenda
      exact hagenda ▸ idle_append.mpr ⟨htasks, (idle_cons.mp h.idle).2⟩
  | renew hcell | invalidate hcell | reconsider hcell | rest hcell | evaluate hcell | advance hcell
  | answer _ hcell | unregister hcell | edit hcell | awake hcell =>
    rw [h.cell] at hcell
    cases hcell

theorem Settled.perform (h : w.Settled c (task :: w.agenda))
    (hreentry : w.reentry w.agenda task = false) :
    (w.perform task).Settled c (w.perform task).agenda := by
  by_cases hmakes : w.Makes c task
  · obtain ⟨rfl, position, expression, scope, automatic, rfl⟩ := hmakes
    obtain ⟨hnext, -, -, cell, tasks, hcell, hactive, -, -, hagenda, htasks⟩ :=
      w.operate_newCell position expression scope automatic
    refine ⟨fun found hfound => ?_, fun hle => ?_⟩
    · have heq : found = cell := Option.some.inj (hfound.symm.trans hcell)
      have hidle : Idle w.nextCell (tasks ++ w.agenda) :=
        idle_append.mpr ⟨htasks, (idle_cons.mp (h.unborn (Nat.le_refl _)).idle).2⟩
      rw [heq]
      exact hagenda ▸ .of_unborn hidle hactive
    · exact absurd (hnext ▸ hle) (Nat.not_succ_le_self _)
  · refine ⟨h.inOrder.perform hmakes hreentry, fun hle => ?_⟩
    exact (h.unborn ((perform_turn hmakes).numbered.1.trans hle)).perform hmakes

theorem Settled.pop {rest : List Task} (h : w.Settled c w.agenda)
    (hagenda : w.agenda = task :: rest) :
    ({ w with agenda := rest } : Workspace).Settled c (task :: rest) := by
  rw [hagenda] at h
  exact ⟨h.inOrder, fun hle => ⟨(h.unborn hle).cell, (h.unborn hle).idle, (h.unborn hle).command⟩⟩

theorem Settled.sweep (h : w.Settled c w.agenda) : w.sweep.Settled c w.sweep.agenda := by
  obtain ⟨cells, tree, heq, hcells⟩ := w.exists_sweep_eq
  rw [heq]
  refine ⟨fun cell hcell => h.inOrder cell (hcells hcell), fun hle => ⟨?_, (h.unborn hle).idle,
    (h.unborn hle).command⟩⟩
  by_contra hcell
  obtain ⟨cell, hcell⟩ := Option.ne_none_iff_exists'.mp hcell
  have hfound := hcells hcell
  rw [(h.unborn hle).cell] at hfound
  cases hfound

theorem Settled.call (h : w.Settled c w.agenda) (hquiet : w.agenda = []) (op : Op) :
    (w.call op).Settled c (w.call op).agenda := by
  rw [hquiet] at h
  have hidle : Idle c [.operate op] := by simp [Task.drives]
  refine ⟨fun cell hcell => ?_, fun hle => ⟨(h.unborn hle).cell, hidle, (h.unborn hle).command⟩⟩
  have horderly := h.inOrder cell hcell
  have hplaces : places c [.operate op] cell = places c [] cell := Orderly.places_append hidle
  refine ⟨by simp [Workspace.call], fun hmem => absurd hmem (hidle.not_mem rfl), ?_, ?_,
    horderly.active, fun hmem => absurd hmem (hidle.not_mem rfl)⟩
  · exact hplaces ▸ horderly.place
  · intro hany
    rw [Workspace.call, hidle.any_resumes] at hany
    cases hany

/-- As long as no cell begins a run during a refresh of it, every cell is in order. -/
theorem Run.settled (h : Run (fun w => w.reenters = false) { backend } past w) (c : CellId) :
    w.Settled c w.agenda := by
  refine h.invariant (P := fun _ w => w.Settled c w.agenda) ?_ ?_ ?_
  · refine ⟨fun cell hcell => ?_, fun _ => ⟨?_, idle_nil, fun hfind => ?_⟩⟩
    · simp [cell?] at hcell
    · simp [cell?]
    · simp [DispatchQueue.empty, DispatchQueue.find?] at hfind
  · exact fun _ w op h hquiet => h.call hquiet op
  · intro past w task rest h hreenters hagenda
    rw [reenters, hagenda] at hreenters
    exact ((h.pop hagenda).perform hreenters).sweep

end Workspace

end MathCanvas
