import MathCanvas.Proofs.Expr.Results
import MathCanvas.Proofs.Workspace.Runs

/-!
# The expression of a cell

The client gives a cell an expression by `Op.setExpression`. Evaluating the cell only fills and
empties the result slots of the chain, so that the blanked form of the expression stays
(`Run.blanked_expression`), provided that the plan of the cell fits the expression. When the
expression is replaced, the plan and the active command are still those of the old one, and they are
dropped only by the refresh that ends the batch. Until then, the answer to that command must not
arrive: `setExpression_loses_body` is a run in which it does, and in which a part of the new
expression is lost.
-/

namespace MathCanvas

/-- Whether a task is going to drop the plan of a cell. -/
def Task.Renews (c : CellId) (task : Task) : Prop :=
  task = .cell c .refresh ∨ task = .cell c .invalidate ∨
    ∃ outer, task = .cell c (.endBatch outer true)

/-- Whether an operation gives a cell another expression. -/
def Op.edits (c : CellId) : Op → Bool
  | .setExpression c' _ => c' == c
  | _ => false

namespace Cell

variable {cell cell' : Cell}

/-- The plan of a cell, if it has one, is one of its expression. -/
def Fitting (cell : Cell) : Prop := ∀ plan ∈ cell.plan, plan.Fits cell.expression

theorem SameRun.fitting (h : cell'.SameRun cell) (hfits : cell.Fitting) : cell'.Fitting := by
  intro plan hplan
  rw [h.expression]
  exact hfits plan (h.plan ▸ hplan)

theorem fitting_of_plan_eq_none (h : cell.plan = none) : cell.Fitting := by
  simp [Fitting, h]

/-- A run begins with the plan of the expression. -/
theorem begin_fitting (cell : Cell) (unset : CellInput → Bool) :
    (cell.begin unset).2.expression = cell.expression ∧ (cell.begin unset).2.Fitting := by
  unfold Cell.begin
  cases cell.scope with
  | none => exact ⟨rfl, fitting_of_plan_eq_none rfl⟩
  | some s =>
    simp only
    cases hplan : Plan.ofExpr cell.expression with
    | error e => exact ⟨rfl, fitting_of_plan_eq_none rfl⟩
    | ok plan =>
      cases plan with
      | none => exact ⟨rfl, fitting_of_plan_eq_none rfl⟩
      | some plan =>
        simp only
        split
        · exact ⟨rfl, fitting_of_plan_eq_none rfl⟩
        · refine ⟨rfl, fun plan' hplan' => ?_⟩
          cases hplan'
          exact Plan.fits_of_ofExpr hplan

/-- The value of a stage of a plan that fits. -/
theorem Fitting.complete (h : cell.Fitting) {plan : Plan} (hplan : cell.plan = some plan)
    (value : Expr) :
    (cell.complete plan value).2.expression.blanked = cell.expression.blanked ∧
      (cell.complete plan value).2.Fitting := by
  obtain ⟨hblanked, hfits⟩ := (h plan hplan).complete value
  refine ⟨hblanked, fun plan' hplan' => ?_⟩
  cases hplan'
  exact hfits

end Cell

namespace Workspace

variable {w w' w₀ : Workspace} {c : CellId} {cell : Cell} {e : Expr} {out : Option CommandId}
  {past past' : List Event} {rest tasks : List Task} {backend : Backend}

/-- The plan of a cell is going to be dropped before the run of the generation goes on. -/
def Renewing (c : CellId) (generation : Nat) (agenda : List Task) : Prop :=
  ∃ soon task later, agenda = soon ++ task :: later ∧ task.Renews c ∧
    .cell c (.advance generation) ∉ soon

/-- The expression of a cell is `e`, up to results, and evaluation will keep it so: the plan fits
the expression, or it will not be followed any more unless the command is answered that is out. -/
structure Intact (c : CellId) (e : Expr) (out : Option CommandId) (agenda : List Task)
    (cell : Cell) : Prop where
  blanked : cell.expression.blanked = e.blanked
  followed : cell.Fitting ∨
    Renewing c cell.generation agenda ∧ (cell.active = none ∨ cell.active = out)

/-- Whether a task gives the cell another expression, or answers the command that is out while the
cell still waits for it. -/
def disturbs (w : Workspace) (c : CellId) (out : Option CommandId) : Task → Bool
  | .operate op =>
    op.edits c ||
      (out.isSome && w.answered? op == out && (w.cell? c).any fun cell => cell.active == out)
  | _ => false

/-- Whether the next task leaves the expression and the command that is out alone. -/
def Undisturbed (c : CellId) (out : Option CommandId) (w : Workspace) : Prop :=
  ∀ task ∈ w.agenda.head?, w.disturbs c out task = false

instance (c : CellId) (out : Option CommandId) (w : Workspace) : Decidable (Undisturbed c out w) :=
  inferInstanceAs (Decidable (∀ task ∈ w.agenda.head?, w.disturbs c out task = false))

/-- The expression of the cell, if it is there, is and stays `e` up to results. -/
structure Keeps (w : Workspace) (c : CellId) (e : Expr) (out : Option CommandId)
    (agenda : List Task) : Prop where
  nextCell : c < w.nextCell
  cell : ∀ {cell : Cell}, w.cell? c = some cell → Intact c e out agenda cell

theorem Intact.of_fitting {agenda : List Task} (h : cell.expression.blanked = e.blanked)
    (hfits : cell.Fitting) : Intact c e out agenda cell := ⟨h, .inl hfits⟩

/-- What is first on the agenda goes, and tasks that do not go on with a run come instead. -/
theorem Renewing.pop {generation : Nat} {task : Task}
    (h : Renewing c generation (task :: rest)) (htask : ¬task.Renews c)
    (htasks : .cell c (.advance generation) ∉ tasks) : Renewing c generation (tasks ++ rest) := by
  obtain ⟨soon, renewal, later, hagenda, hrenews, hsoon⟩ := h
  cases soon with
  | nil =>
    cases hagenda
    exact absurd hrenews htask
  | cons first soon =>
    cases hagenda
    refine ⟨tasks ++ soon, renewal, later, (List.append_assoc ..).symm, hrenews, fun hmem => ?_⟩
    rcases List.mem_append.mp hmem with hmem | hmem
    · exact htasks hmem
    · exact hsoon (List.mem_cons_of_mem _ hmem)

/-- A cell that is at the same point of the same run. -/
theorem Intact.of_sameRun {agenda agenda' : List Task} {cell' : Cell}
    (h : Intact c e out agenda cell) (hsame : cell'.SameRun cell)
    (hagenda : Renewing c cell.generation agenda → Renewing c cell.generation agenda') :
    Intact c e out agenda' cell' where
  blanked := by rw [hsame.expression, h.blanked]
  followed := by
    rw [hsame.generation, hsame.active]
    exact h.followed.imp hsame.fitting (And.imp_left hagenda)

theorem Intact.renewed {agenda : List Task} {cell' : Cell} {renewal : Task}
    (h : Intact c e out agenda cell) (hsame : cell'.SameRun cell) (hrenewal : renewal.Renews c) :
    Intact c e out (renewal :: rest) cell' :=
  h.of_sameRun hsame fun _ => ⟨[], renewal, rest, rfl, hrenewal, by simp⟩

theorem Keeps.putCell {agenda : List Task} {cell' : Cell} (h : w.Keeps c e out agenda)
    (hcell' : Intact c e out (tasks ++ w.agenda) cell') :
    ((w.putCell c cell').push tasks).Keeps c e out (tasks ++ w.agenda) where
  nextCell := h.nextCell
  cell {found} hfound := by
    have hlookup : (w.cells.insert c cell')[c]? = some found := hfound
    rw [lookup_insert_self, Option.some.injEq] at hlookup
    rw [← hlookup]
    exact hcell'

/-- The task drops the plan, or goes on towards dropping it. -/
theorem Keeps.perform_of_renews {task : Task} (h : w.Keeps c e out (task :: w.agenda))
    (htask : task.Renews c) : (w.perform task).Keeps c e out (w.perform task).agenda := by
  cases hcell : w.cell? c with
  | none =>
    rcases htask with rfl | rfl | ⟨outer, rfl⟩
    all_goals
      rw [perform_cell_of_none hcell]
      exact ⟨h.nextCell, fun hfound => by rw [hcell] at hfound; cases hfound⟩
  | some cell =>
    have hintact := h.cell hcell
    rcases htask with rfl | rfl | ⟨outer, rfl⟩
    all_goals rw [perform_cell hcell]
    · exact ⟨h.nextCell, fun hfound => (h.cell hfound).renewed (.refl _) (.inr (.inl rfl))⟩
    · refine h.putCell (.of_fitting ?_ (Cell.fitting_of_plan_eq_none rfl))
      rw [← hintact.blanked]
      exact Expr.blanked_stripResults cell.expression
    · exact h.putCell (hintact.renewed (.resumed cell outer) (.inl rfl))

theorem Keeps.advance {generation : Nat}
    (h : w.Keeps c e out (.cell c (.advance generation) :: w.agenda))
    (hcell : w.cell? c = some cell) :
    (w.advance c cell generation).Keeps c e out (w.advance c cell generation).agenda := by
  obtain ⟨hblanked, hfollowed⟩ := h.cell hcell
  have hnot : ¬(Task.cell c (.advance generation)).Renews c := by simp [Task.Renews]
  unfold Workspace.advance
  split
  · refine ⟨h.nextCell, fun {found} hfound => (h.cell hfound).of_sameRun (.refl _) ?_⟩
    intro hrenewing
    have hnone : .cell c (.advance found.generation) ∉ ([] : List Task) := by simp
    exact hrenewing.pop hnot hnone
  · rename_i hgeneration
    rw [not_not] at hgeneration
    -- the run goes on, so that the plan is not about to be dropped
    have hfits : cell.Fitting := by
      refine hfollowed.resolve_right ?_
      rintro ⟨⟨soon, renewal, later, hagenda, hrenews, hsoon⟩, -⟩
      cases soon with
      | nil => exact hnot ((List.cons.inj hagenda).1 ▸ hrenews)
      | cons first soon =>
        refine hsoon ?_
        rw [hgeneration, (List.cons.inj hagenda).1]
        exact List.mem_cons_self
    have hput : ∀ (cell' : Cell) (tasks : List Task), cell'.expression.blanked = e.blanked →
        cell'.Fitting → ((w.putCell c cell').push tasks).Keeps c e out (tasks ++ w.agenda) :=
      fun _ _ hblanked' hfits' => h.putCell (.of_fitting hblanked' hfits')
    split
    · refine ⟨h.nextCell, fun hfound => ?_⟩
      rw [hcell, Option.some.injEq] at hfound
      exact hfound ▸ .of_fitting hblanked hfits
    · rename_i plan hplan
      split
      · exact hput _ [] hblanked (Cell.fitting_of_plan_eq_none rfl)
      · unfold dispatch
        exact ⟨h.nextCell, (hput { cell with active := some w.nextCommand, status := .evaluating } _
          hblanked hfits).cell⟩
      · obtain ⟨hblanked', hfits'⟩ := hfits.complete hplan _
        exact hput _ _ (hblanked'.trans hblanked) hfits'

theorem Keeps.receive {id : CommandId} {agenda : List Task} (h : w.Keeps c e out agenda)
    (hcell : w.cell? c = some cell) (hfits : cell.Fitting) (hactive : cell.active = some id)
    (outcome : Outcome) :
    (w.receive id c outcome).Keeps c e out (w.receive id c outcome).agenda := by
  have hblanked := (h.cell hcell).blanked
  have hput : ∀ (cell' : Cell) (tasks : List Task), cell'.expression.blanked = e.blanked →
      cell'.Fitting → ((w.putCell c cell').push tasks).Keeps c e out (tasks ++ w.agenda) :=
    fun _ _ hblanked' hfits' => h.putCell (.of_fitting hblanked' hfits')
  unfold Workspace.receive
  rw [hcell]
  simp only [hactive, ne_eq, not_true_eq_false, if_false]
  split
  · exact hput _ [] hblanked (Cell.fitting_of_plan_eq_none rfl)
  · split
    · rename_i hplan
      exact hput _ [] hblanked (Cell.fitting_of_plan_eq_none hplan)
    · rename_i plan hplan
      have hfits' : Cell.Fitting { cell with active := none } := hfits
      obtain ⟨hblanked', hcomplete⟩ := hfits'.complete hplan _
      exact hput _ _ (hblanked'.trans hblanked) hcomplete

/-- One task keeps the expression. -/
theorem Keeps.perform {task : Task} (h : w.Keeps c e out (task :: w.agenda))
    (hundisturbed : w.disturbs c out task = false) :
    (w.perform task).Keeps c e out (w.perform task).agenda := by
  by_cases hrenews : task.Renews c
  · exact h.perform_of_renews hrenews
  have hlater : ∀ (tasks : List Task) {cell : Cell}, w.cell? c = some cell →
      .cell c (.advance cell.generation) ∉ tasks → Intact c e out (tasks ++ w.agenda) cell :=
    fun _ _ hcell hmem => (h.cell hcell).of_sameRun (.refl _) fun hrenewing =>
      hrenewing.pop hrenews hmem
  have hturn := perform_turn (not_makes h.nextCell task)
  generalize w.perform task = w' at hturn ⊢
  cases hturn with
  | leave hidle hleaves =>
    refine ⟨h.nextCell.trans_le hleaves.nextCell, fun hfound => ?_⟩
    obtain ⟨cell, hcell, hsame⟩ := hleaves.cell hfound
    obtain ⟨tasks, hagenda, htasks⟩ := hleaves.agenda
    rw [hagenda]
    refine (h.cell hcell).of_sameRun hsame fun hrenewing => hrenewing.pop hrenews fun hmem => ?_
    simpa [Task.drives, CellTask.drives] using htasks _ hmem
  | renew hcell hidle hnext hmore =>
    exact ⟨h.nextCell, fun hfound => (h.cell hfound).renewed (.refl _) (.inr (.inl rfl))⟩
  | invalidate hcell => exact absurd (.inr (.inl rfl)) hrenews
  | reconsider hcell =>
    exact ⟨h.nextCell, fun hfound => (h.cell hfound).of_sameRun (.refl _) fun hrenewing =>
      hrenewing.pop hrenews (by simp)⟩
  | @rest cell hcell =>
    obtain ⟨hblanked, hfollowed⟩ := hlater [] hcell (by simp)
    have hidle : Intact c e out ([] ++ w.agenda) { cell with status := cell.idleStatus } :=
      ⟨hblanked, hfollowed⟩
    exact h.putCell hidle
  | @evaluate cell hcell =>
    obtain ⟨hexpression, hfits⟩ := cell.begin_fitting fun i => (w.inputValue i).isUnset
    refine h.putCell (.of_fitting ?_ hfits)
    rw [hexpression, (h.cell hcell).blanked]
  | advance hcell => exact h.advance hcell
  | @answer op id cell outcome hcell hactive hanswers =>
    have hfits : cell.Fitting := by
      refine (h.cell hcell).followed.resolve_right ?_
      rintro ⟨-, hnone | hout⟩
      · rw [hactive] at hnone
        cases hnone
      · rw [hactive] at hout
        simp [disturbs, ← hout, hanswers, hcell, hactive] at hundisturbed
    have hcancelled : ({ w with commands := w.commands.cancel id } : Workspace).Keeps c e out
        (.operate op :: w.agenda) := ⟨h.nextCell, h.cell⟩
    exact hcancelled.receive hcell hfits hactive outcome
  | unregister hcell hmore =>
    exact h.putCell (.of_fitting (h.cell hcell).blanked (Cell.fitting_of_plan_eq_none rfl))
  | edit hcell => simp [disturbs, Op.edits] at hundisturbed
  | awake hcell hstale =>
    obtain ⟨hblanked, hfollowed⟩ := hlater [.cell c .evaluate, .releaseCell c] hcell (by simp)
    exact h.putCell ⟨hblanked, hfollowed⟩

theorem Keeps.sweep (h : w.Keeps c e out w.agenda) : w.sweep.Keeps c e out w.sweep.agenda := by
  have hleaves := w.leaves_sweep c
  refine ⟨h.nextCell.trans_le hleaves.nextCell, fun hfound => ?_⟩
  obtain ⟨cell, hcell, hsame⟩ := hleaves.cell hfound
  exact (h.cell hcell).of_sameRun hsame (w.sweep_agenda ▸ id)

/-- Right after the call, the plan is still there, but it is not followed any more. -/
theorem keeps_setExpression {before : Cell} (hnext : c < w.nextCell) (hheld : c ∈ w.heldCells)
    (hbefore : w.cell? c = some before) :
    (w.operate (.setExpression c e)).2.Keeps c e before.active
      (w.operate (.setExpression c e)).2.agenda := by
  have hoperate : (w.operate (.setExpression c e)).2
      = (w.push [.releaseCell c]).batch c { before with expression := e } true := by
    show w.onHeldCell c _ = _
    unfold onHeldCell onCell
    rw [if_pos (by simpa using hheld), hbefore]
  rw [hoperate]
  refine ⟨hnext, fun {cell} hfound => ?_⟩
  have hlookup : (w.cells.insert c { before with expression := e, suspended := true })[c]?
    = some cell := hfound
  rw [lookup_insert_self, Option.some.injEq] at hlookup
  subst hlookup
  refine ⟨rfl, .inr ⟨?_, .inr rfl⟩⟩
  exact ⟨[.cell c .synchronize], .cell c (.endBatch before.suspended true), _, rfl,
    .inr (.inr ⟨_, rfl⟩), by simp⟩

/-- After the client has given a cell an expression, the cell keeps it up to results in the slots
of its chain, until it is given another one; as long as the command that was out when the operation
began is not answered while the cell still waits for it. -/
theorem Run.blanked_expression {before : Cell} (h : Run (fun _ => True) { backend } past w₀)
    (hcall : w₀.agenda = .operate (.setExpression c e) :: rest) (hheld : c ∈ w₀.heldCells)
    (hbefore : w₀.cell? c = some before)
    (hrun : Run (Undisturbed c before.active) w₀.step past' w) (hcell : w.cell? c = some cell) :
    cell.expression.blanked = e.blanked := by
  have hnext := h.lt_nextCell hbefore
  have hkeeps : w.Keeps c e before.active w.agenda := by
    refine hrun.invariant (P := fun _ w => w.Keeps c e before.active w.agenda) ?_ ?_ ?_
    · rw [step_of_agenda hcall]
      exact (keeps_setExpression (w := { w₀ with agenda := rest }) hnext hheld hbefore).sweep
    · intro past w op h hquiet
      refine ⟨h.nextCell, fun hfound => (h.cell hfound).of_sameRun (.refl _) ?_⟩
      rintro ⟨soon, renewal, later, hagenda, -⟩
      rw [hquiet] at hagenda
      simp at hagenda
    · intro past w task rest h hundisturbed hagenda
      rw [hagenda] at h
      have hpopped : ({ w with agenda := rest } : Workspace).Keeps c e before.active
        (task :: rest) := ⟨h.nextCell, h.cell⟩
      exact (hpopped.perform (hundisturbed task (by rw [hagenda]; rfl))).sweep
  exact (hkeeps.cell hcell).blanked

/-- The answer to a command that was sent after the expression was replaced. -/
theorem blanked_expression_answered :
    let old : Expr := .app "Equal" [.string "old", .missing]
    let new : Expr := .app "Equal" [.string "new", .missing]
    let made := (({ backend := .recording } : Workspace).call
      (.newCell .origin old (some 0) true)).settle 11
    let edited := (made.call (.setExpression 0 new)).step.settle 10
    let answered := (edited.call (.answer (some 1) (.outcome (.ok (.string "result"))))).settle 3
    ∃ cell, answered.cell? 0 = some cell ∧
      cell.expression = .app "Equal" [.string "new", .string "result"] ∧
      cell.expression.blanked = new.blanked := by
  intro old new made edited answered
  have hmade : Run (fun _ => True) { backend := .recording } [] made :=
    (Run.refl.call (.newCell .origin old (some 0) true) rfl).settle fun _ _ => trivial
  have hquiet : made.agenda = [] := by decide +kernel
  obtain ⟨before, hbefore, hactive⟩ : ∃ before, made.cell? 0 = some before ∧
      before.active = some 0 := by
    have hactive : (made.cell? 0).bind (·.active) = some 0 := by decide +kernel
    exact Option.bind_eq_some_iff.mp hactive
  have hedited : Run (Undisturbed 0 before.active) (made.call (.setExpression 0 new)).step []
      edited := by
    rw [hactive]
    exact Run.refl.settle (by decide +kernel)
  have hundisturbed : ∀ n < 3, Undisturbed 0 (some 0)
      ((edited.call (.answer (some 1) (.outcome (.ok (.string "result"))))).settle n) := by
    decide +kernel
  have hidle : edited.agenda = [] := by decide +kernel
  have hanswered : Run (Undisturbed 0 before.active) (made.call (.setExpression 0 new)).step
      ([] ++ edited.history) answered := by
    rw [← hactive] at hundisturbed
    exact (hedited.call (.answer (some 1) (.outcome (.ok (.string "result")))) hidle).settle
      hundisturbed
  have hheld : 0 ∈ made.heldCells := by decide +kernel
  have hexpression : (answered.cell? 0).map (·.expression)
      = some (.app "Equal" [.string "new", .string "result"]) := by decide +kernel
  obtain ⟨cell, hcell, hresult⟩ := Option.map_eq_some_iff.mp hexpression
  clear_value made edited answered
  exact ⟨cell, hcell, hresult, (hmade.call (.setExpression 0 new) hquiet).blanked_expression rfl
    hheld hbefore hanswered hcell⟩

/-- A cell that waits for the value of `1 + 1` is made to assign `2 + 3` to `z`. The reader of `z`
that is told about the new definition answers the old command, and its value takes the place of the
body of the assignment. -/
theorem setExpression_loses_body :
    let one : Expr := .number ⟨0x3ff0000000000000⟩
    let seven : Expr := .number ⟨0x401c000000000000⟩
    let sum : Expr := .app "Add" [.number ⟨0x4000000000000000⟩, .number ⟨0x4008000000000000⟩]
    let new : Expr := .app "Assign" [.symbol "z", sum]
    let w := ((((({ backend := .recording } : Workspace).apply
      (.addReader 0 "z" ⟨.zero false, ⟨0x4022000000000000⟩⟩)).2.apply
      (.subscribe (.reader 0) fun _ _ => [.answer (some 0) (.outcome (.ok seven))])).2.apply
      (.newCell ⟨.zero false, ⟨0x4014000000000000⟩⟩
        (.app "Equal" [.app "Add" [one, one], .missing]) (some 0) true)).2.apply
      (.setExpression 0 new)).2
    w.agenda = [] ∧ ((w.cell? 0).map (·.expression)) = some (.app "Assign" [.symbol "z", seven]) ∧
      ((w.cell? 0).map (·.expression.blanked)) ≠ some new.blanked := by
  decide +kernel

end Workspace

end MathCanvas
