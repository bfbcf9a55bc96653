import MathCanvas.Proofs.Expr.Following
import MathCanvas.Proofs.Workspace.Status
import MathCanvas.Proofs.Workspace.WellKept

/-!
# Clients that write while they are told

A client that is told of a value may set or clear definitions before the operation that set this off
is finished, so that cells are told of other values meanwhile, refresh and evaluate. If operations
within others do nothing else (`Workspace.meddles`), and the backend answers every command at once,
the workspace stays well-kept and the run of every cell stays at one place (`Run.writing`).
-/

namespace MathCanvas

/-- A backend that answers every command before it is dispatched, by a function of the inputs and
the expression, and does nothing when a command is cancelled. -/
structure Backend.Computes (backend : Backend) (f : Inputs → Expr → Outcome) : Prop where
  channel : backend.channel = .direct
  onDispatch : ∀ id command, ∃ answer, backend.onDispatch id command = [.answer (some id) answer] ∧
    answer.outcome? command = some (f command.inputs command.expression)
  onCancel : ∀ id, backend.onCancel id = []

theorem Backend.computes_immediate : Backend.immediate.Computes Calculator.evaluate :=
  ⟨rfl, fun _ _ => ⟨.computed, rfl, rfl⟩, fun _ => rfl⟩

/-- What is put in front of a list comes before every part of it. -/
theorem List.exists_of_append_eq_append {α : Type} {t : α} {front back pre rest : List α}
    (h : front ++ back = pre ++ rest) (hrest : rest = [] ∨ ∃ later, rest = t :: later)
    (hfront : t ∉ front) : ∃ mid, pre = front ++ mid ∧ back = mid ++ rest := by
  rcases List.append_eq_append_iff.mp h with ⟨mid, rfl, rfl⟩ | ⟨mid, rfl, rfl⟩
  · exact ⟨mid, rfl, rfl⟩
  · have hmid : mid = [] := by
      cases mid with
      | nil => rfl
      | cons x mid =>
        rcases hrest with hnil | ⟨later, hcons⟩
        · cases hnil
        · cases hcons
          simp at hfront
    subst hmid
    exact ⟨[], by simp, by simp⟩

namespace Workspace

variable {w w' : Workspace} {f : Inputs → Expr → Outcome} {c : CellId} {cell cell' : Cell}
  {id : CommandId} {task : Task} {tasks agenda rest : List Task} {op : Op} {name : String}
  {s : ScopeId} {x : SlotId} {v : SlotValue}

/-- Whether an operation within another one is next that does more than set or clear a definition or
answer a command. -/
def meddles (w : Workspace) : Bool :=
  match w.agenda with
  | .operate (.set _ _) :: _ | .operate (.clear _) :: _ | .operate (.answer (some _) _) :: _
  | [.operate _] => false
  | .operate _ :: _ => true
  | _ => false

theorem writes_or_answers (h : w.meddles = false) (hagenda : w.agenda = .operate op :: rest) :
    op.Writes ∨ (∃ id answer, op = .answer (some id) answer) ∨ rest = [] := by
  cases rest with
  | nil => exact .inr (.inr rfl)
  | cons task rest =>
    cases op with
    | set | clear => exact .inl trivial
    | answer command answer =>
      cases command with
      | some id => exact .inr (.inl ⟨id, answer, rfl⟩)
      | none => simp [meddles, hagenda] at h
    | _ => simp [meddles, hagenda] at h

/-! ### The run of a cell -/

/-- A cell waits for a command, and the answer is next. -/
structure Asks (w : Workspace) (f : Inputs → Expr → Outcome) (c : CellId) (cell : Cell)
    (id : CommandId) (agenda : List Task) : Prop where
  pending : ∃ plan inputs request, cell.plan = some plan ∧
    plan.next cell.expression = .request request ∧
      w.commands.find? id = some ⟨c, inputs, request⟩ ∧
        ∃ answer, agenda.head? = some (.operate (.answer (some id) answer)) ∧
          answer.outcome? ⟨c, inputs, request⟩ = some (f inputs request)

/-- What a cell that waits for a command is given is the value of the function. -/
theorem Asks.perform (h : w.Asks f c cell id (task :: agenda))
    (hchannel : w.backend.channel = .direct) : ∃ plan inputs request, cell.plan = some plan ∧
      plan.next cell.expression = .request request ∧
        w.commands.find? id = some ⟨c, inputs, request⟩ ∧
          (∃ answer, task = .operate (.answer (some id) answer)) ∧ w.perform task =
            ({ w with commands := w.commands.cancel id } : Workspace).receive id c
              (f inputs request) := by
  obtain ⟨plan, inputs, request, hplan, hnext, hfind, answer, hhead, houtcome⟩ := h.pending
  cases hhead
  refine ⟨plan, inputs, request, hplan, hnext, hfind, ⟨answer, rfl⟩, ?_⟩
  have hanswer : (w.operate (.answer (some id) answer)).2 = (w.answerCommand id answer).2 := by
    unfold operate
    simp only [hchannel, Option.some_or]
  rw [Workspace.perform, hanswer, answerCommand, DispatchQueue.take, hfind]
  cases answer with
  | outcome outcome =>
    cases houtcome
    rfl
  | computed =>
    simp only [Answer.outcome?, Option.some.injEq] at houtcome
    rw [← houtcome]
  | unreadable => cases houtcome

/-- The tasks lead to the end of the run of a cell, if there is one. -/
def Ends (c : CellId) (cell : Cell) (tasks : List Task) : Prop :=
  cell.plan = none ∨ cell.active ≠ none ∨ .cell c .invalidate ∈ tasks ∨
    .cell c (.advance cell.generation) ∈ tasks

/-- The run of a cell follows a plan of its expression. Its command is answered next, or a task goes
on with it, and before the cell reconsiders it is invalidated or has finished its run. -/
structure Driven (w : Workspace) (f : Inputs → Expr → Outcome) (c : CellId)
    (agenda : List Task) : Prop where
  fitting : ∀ cell, w.cell? c = some cell → cell.Fitting
  asks : ∀ cell id, w.cell? c = some cell → cell.active = some id → w.Asks f c cell id agenda
  ends : ∀ cell, w.cell? c = some cell → ∀ pre rest, agenda = pre ++ rest →
    (rest = [] ∨ ∃ later, rest = .cell c .reconsider :: later) → Ends c cell pre

namespace Driven

/-- A cell without a plan. -/
theorem of_plan_eq_none (h : ∀ cell, w.cell? c = some cell → cell.plan = none ∧ cell.active = none) :
    w.Driven f c agenda where
  fitting cell hcell := Cell.fitting_of_plan_eq_none (h cell hcell).1
  asks cell id hcell hactive := by
    rw [(h cell hcell).2] at hactive
    cases hactive
  ends cell hcell _ _ _ _ := .inl (h cell hcell).1

/-- The cell is where it was, or goes on. -/
theorem goes (h : w.Driven f c (task :: w.agenda)) (hagenda : w'.agenda = tasks ++ w.agenda)
    (hreconsider : .cell c .reconsider ∉ tasks)
    (hcell : ∀ cell', w'.cell? c = some cell' → cell'.active = none ∧ cell'.Fitting ∧
      ∀ mid, (∃ cell, w.cell? c = some cell ∧ Ends c cell (task :: mid)) →
        Ends c cell' (tasks ++ mid))
    (hpresent : w'.cell? c ≠ none → w.cell? c ≠ none) : w'.Driven f c w'.agenda where
  fitting cell' hcell' := (hcell cell' hcell').2.1
  asks cell' id hcell' hactive := by
    rw [(hcell cell' hcell').1] at hactive
    cases hactive
  ends cell' hcell' pre rest hsplit hrest := by
    obtain ⟨cell, hfound⟩ := Option.ne_none_iff_exists'.mp
      (hpresent (by rw [hcell']; exact Option.some_ne_none _))
    obtain ⟨mid, rfl, hmid⟩ :=
      List.exists_of_append_eq_append (hagenda ▸ hsplit) hrest hreconsider
    refine (hcell cell' hcell').2.2 mid
      ⟨cell, hfound, h.ends cell hfound (task :: mid) rest ?_ hrest⟩
    rw [hmid, List.cons_append]

/-- A value has been recorded, and the run goes on. -/
theorem complete {plan : Plan} {old : Cell} {more : List Task} {value : Expr}
    (h : w.Driven f c (task :: w.agenda)) (hcell : w.cell? c = some cell)
    (hplan : cell.plan = some plan) (hexpression : old.expression = cell.expression)
    (hactive : old.active = none)
    (hcells : w'.cell? c = some (old.complete plan value).2) (output : Option CellOutput)
    (hagenda : w'.agenda = (output.toList.map (fun o => Task.write o.scope o.slot (.defined value))
      ++ .cell c (.advance old.generation) :: more) ++ w.agenda)
    (hmore : .cell c .reconsider ∉ more) : w'.Driven f c w'.agenda := by
  refine h.goes hagenda (by simp [hmore]) (fun cell' hcell' => ?_) fun _ => by simp [hcell]
  cases hcells.symm.trans hcell'
  refine ⟨hactive, fun plan' hplan' => ?_, fun mid _ => .inr (.inr (.inr ?_))⟩
  · cases hplan'
    have hfits := h.fitting cell hcell plan hplan
    show Plan.Fits (plan.complete old.expression value).2.2 (plan.complete old.expression value).2.1
    rw [hexpression]
    exact (hfits.complete value).2
  · exact List.mem_append_left _ (List.mem_append_right _ List.mem_cons_self)

theorem receive {inputs : Inputs} {request : Expr} {plan : Plan}
    (h : w.Driven f c (task :: w.agenda)) (hcell : w.cell? c = some cell)
    (hactive : cell.active = some id) (hplan : cell.plan = some plan)
    (hperform : w.perform task =
      ({ w with commands := w.commands.cancel id } : Workspace).receive id c (f inputs request)) :
    (w.perform task).Driven f c (w.perform task).agenda := by
  have hfound : ({ w with commands := w.commands.cancel id } : Workspace).cell? c = some cell := hcell
  unfold Workspace.receive at hperform
  simp only [hfound, hactive, ne_eq, not_true_eq_false, if_false] at hperform
  split at hperform
  · rw [hperform]
    refine of_plan_eq_none fun cell' hcell' => ?_
    cases (cell?_putCell ..).symm.trans hcell'
    exact ⟨rfl, rfl⟩
  · rename_i value _
    rw [hplan] at hperform
    let old : Cell := { cell with active := none }
    have hcells : (w.perform task).cell? c = some (old.complete plan value).2 := by
      rw [hperform]
      exact cell?_putCell ..
    have hexpression : old.expression = cell.expression := rfl
    refine h.complete hcell hplan hexpression rfl hcells (old.complete plan value).1
      (congrArg Workspace.agenda hperform) ?_
    simp

/-- A cell that is at rest between two stages goes on with its run, if this is the run of the
generation. -/
theorem advance {generation : Nat} (h : w.Driven f c (.cell c (.advance generation) :: w.agenda))
    (hcomputes : w.backend.Computes f) (hcell : w.cell? c = some cell)
    (hactive : cell.active = none) :
    (w.advance c cell generation).Driven f c (w.advance c cell generation).agenda := by
  unfold Workspace.advance
  split
  · rename_i hgeneration
    refine h.goes (List.nil_append _).symm (by simp) (fun cell' hcell' => ?_) id
    cases hcell.symm.trans hcell'
    refine ⟨hactive, h.fitting cell hcell, fun mid hends => ?_⟩
    obtain ⟨before, hbefore, hends⟩ := hends
    cases hcell.symm.trans hbefore
    rcases hends with hplan | hasks | hmem | hmem
    · exact .inl hplan
    · exact .inr (.inl hasks)
    · exact .inr (.inr (.inl ((List.mem_cons.mp hmem).resolve_left (by simp))))
    · refine .inr (.inr (.inr ((List.mem_cons.mp hmem).resolve_left ?_)))
      rintro ⟨⟩
      exact hgeneration rfl
  rename_i hgeneration
  obtain rfl := not_not.mp hgeneration
  split
  · rename_i hplan
    refine of_plan_eq_none fun cell' hcell' => ?_
    cases hcell.symm.trans hcell'
    exact ⟨hplan, hactive⟩
  rename_i plan hplan
  split
  · refine of_plan_eq_none fun cell' hcell' => ?_
    cases (cell?_putCell ..).symm.trans hcell'
    exact ⟨rfl, hactive⟩
  · rename_i request hnext
    obtain ⟨answer, hdispatch, houtcome⟩ :=
      hcomputes.onDispatch w.nextCommand ⟨c, w.definedInputs cell, request⟩
    have hfound : ∀ cell', (w.dispatch c cell request).cell? c = some cell' →
        { cell with active := some w.nextCommand, status := .evaluating } = cell' :=
      fun cell' hcell' => Option.some.inj ((cell?_putCell ..).symm.trans hcell')
    refine ⟨fun cell' hcell' => ?_, fun cell' id hcell' hid => ?_,
      fun cell' hcell' _ _ _ _ => .inr (.inl ?_)⟩
    · cases hfound cell' hcell'
      exact h.fitting cell hcell
    · cases hfound cell' hcell'
      cases hid
      refine ⟨plan, w.definedInputs cell, request, hplan, hnext, ?_, answer, ?_, houtcome⟩
      · exact (DispatchQueue.find?_dispatch ..).trans (if_pos rfl)
      · show (((w.backend.onDispatch _ _).map Task.operate) ++ w.agenda).head? = _
        rw [hdispatch]
        rfl
    · cases hfound cell' hcell'
      exact Option.some_ne_none _
  · rename_i target value hnext
    have hcells : ((w.putCell c (cell.complete plan value).2).push
        ((cell.complete plan value).1.toList.map (fun o => .write o.scope o.slot (.defined value)) ++
          [.cell c (.advance cell.generation)])).cell? c = some (cell.complete plan value).2 :=
      cell?_putCell ..
    exact h.complete hcell hplan rfl hactive hcells (cell.complete plan value).1 rfl (by simp)

/-- One task leaves the run of the cell at one place. -/
theorem perform (h : w.Driven f c (task :: w.agenda)) (hcomputes : w.backend.Computes f)
    (hop : ∀ op, task = .operate op →
      op.Writes ∨ (∃ id answer, op = .answer (some id) answer) ∨ w.agenda = []) :
    (w.perform task).Driven f c (w.perform task).agenda := by
  by_cases hwaits : ∃ cell id, w.cell? c = some cell ∧ cell.active = some id
  · obtain ⟨cell, id, hcell, hactive⟩ := hwaits
    obtain ⟨plan, inputs, request, hplan, -, -, -, hperform⟩ :=
      (h.asks cell id hcell hactive).perform hcomputes.channel
    exact h.receive hcell hactive hplan hperform
  have hnone : ∀ cell, w.cell? c = some cell → cell.active = none := fun cell hcell =>
    Option.eq_none_iff_forall_ne_some.mpr fun id hid => hwaits ⟨cell, id, hcell, hid⟩
  by_cases hmakes : w.Makes c task
  · obtain ⟨rfl, position, expression, scope, automatic, rfl⟩ := hmakes
    obtain ⟨-, -, -, cell, tasks, hcell, hactive, hplan, -⟩ :=
      w.operate_newCell position expression scope automatic
    refine of_plan_eq_none fun cell' hcell' => ?_
    cases hcell.symm.trans hcell'
    exact ⟨hplan, hactive⟩
  -- what is left of the run is there afterwards, unless the task is a part of it
  have hkeeps : ∀ {tasks : List Task} {cell cell' : Cell} {mid : List Task},
      cell'.plan = cell.plan → cell'.generation = cell.generation → cell.active = none →
      (∀ driven, task = .cell c driven → driven.drives = false ∨ driven = .reconsider) →
      Ends c cell (task :: mid) → Ends c cell' (tasks ++ mid) := by
    intro tasks cell cell' mid hplan hgeneration hactive htask hends
    rcases hends with hends | hends | hmem | hmem
    · exact .inl (hplan.trans hends)
    · exact absurd hactive hends
    · refine .inr (.inr (.inl (List.mem_append_right _ ((List.mem_cons.mp hmem).resolve_left ?_))))
      rintro rfl
      simpa [CellTask.drives] using htask _ rfl
    · refine .inr (.inr (.inr (List.mem_append_right _ ?_)))
      rw [hgeneration]
      refine (List.mem_cons.mp hmem).resolve_left ?_
      rintro rfl
      simpa [CellTask.drives] using htask _ rfl
  have hstays : ∀ {tasks : List Task}, (w.perform task).agenda = tasks ++ w.agenda →
      .cell c .reconsider ∉ tasks →
      (∀ driven, task = .cell c driven → driven.drives = false ∨ driven = .reconsider) →
      (∀ cell', (w.perform task).cell? c = some cell' →
        ∃ cell, w.cell? c = some cell ∧ cell'.plan = cell.plan ∧
          cell'.generation = cell.generation ∧ cell'.active = cell.active ∧
            cell'.expression = cell.expression) →
      (w.perform task).Driven f c (w.perform task).agenda := by
    intro tasks hagenda hreconsider htask hcells
    refine h.goes hagenda hreconsider (fun cell' hcell' => ?_) fun hpresent => ?_
    · obtain ⟨cell, hcell, hplan, hgeneration, hactive, hexpression⟩ := hcells cell' hcell'
      refine ⟨hactive.trans (hnone cell hcell), fun plan hplan' => ?_, fun mid hends => ?_⟩
      · rw [hexpression]
        exact h.fitting cell hcell plan (hplan ▸ hplan')
      · obtain ⟨before, hbefore, hends⟩ := hends
        cases hcell.symm.trans hbefore
        exact hkeeps hplan hgeneration (hnone cell hcell) htask hends
    · obtain ⟨cell', hcell'⟩ := Option.ne_none_iff_exists'.mp hpresent
      obtain ⟨cell, hcell, -⟩ := hcells cell' hcell'
      rw [hcell]
      exact Option.some_ne_none cell
  have hturn := perform_turn hmakes
  generalize hw' : w.perform task = w' at hturn hstays ⊢
  cases hturn with
  | leave hidle hleaves =>
    obtain ⟨tasks, hagenda, htasks⟩ := hleaves.agenda
    have hcells : ∀ cell', w'.cell? c = some cell' → ∃ cell, w.cell? c = some cell ∧
        cell'.plan = cell.plan ∧ cell'.generation = cell.generation ∧
          cell'.active = cell.active ∧ cell'.expression = cell.expression := by
      intro cell' hcell'
      obtain ⟨cell, hcell, hsame⟩ := hleaves.cell hcell'
      exact ⟨cell, hcell, hsame.plan, hsame.generation, hsame.active, hsame.expression⟩
    have hreconsider : .cell c .reconsider ∉ tasks := fun hmem => by
      simpa [Task.drives, CellTask.drives] using htasks _ hmem
    by_cases hgone : w.cell? c = none
    · refine of_plan_eq_none fun cell' hcell' => ?_
      obtain ⟨cell, hcell, -⟩ := hcells cell' hcell'
      cases hgone.symm.trans hcell
    refine hstays hagenda hreconsider (fun driven heq => .inl ?_) hcells
    have hdrives := hidle.resolve_right hgone
    rw [heq] at hdrives
    simpa [Task.drives] using hdrives
  | @renew cell task next more hcell hidle hnext =>
    refine ⟨fun cell' hcell' => h.fitting cell' hcell', fun cell' id hcell' hid => ?_,
      fun cell' hcell' pre rest hsplit hrest => ?_⟩
    · cases hcell.symm.trans hcell'
      rw [hnone cell hcell] at hid
      cases hid
    · cases pre with
      | nil =>
        rcases hrest with rfl | ⟨later, rfl⟩ <;> cases hsplit
      | cons first pre =>
        obtain rfl := (List.cons.inj hsplit).1
        exact .inr (.inr (.inl List.mem_cons_self))
  | invalidate hcell =>
    refine of_plan_eq_none fun cell' hcell' => ?_
    cases (cell?_putCell ..).symm.trans hcell'
    exact ⟨rfl, rfl⟩
  | reconsider hcell =>
    have hagenda : (w.push [.cell c .evaluate]).agenda = [.cell c .evaluate] ++ w.agenda := rfl
    exact hstays hagenda (by simp)
      (fun driven heq => .inr (by cases heq; rfl)) fun cell' hcell' =>
        ⟨cell', hcell', rfl, rfl, rfl, rfl⟩
  | @rest cell hcell =>
    refine hstays (List.nil_append _).symm (by simp) (fun driven heq => .inr (by cases heq; rfl))
      fun cell' hcell' => ⟨cell, hcell, ?_⟩
    cases (cell?_putCell ..).symm.trans hcell'
    exact ⟨rfl, rfl, rfl, rfl⟩
  | @evaluate cell hcell =>
    have hactive := (cell.begin_run fun i => (w.inputValue i).isUnset).2.1
    refine h.goes rfl (by simp) (fun cell' hcell' => ?_) fun _ => by simp [hcell]
    cases (cell?_putCell ..).symm.trans hcell'
    refine ⟨hactive.trans (hnone cell hcell), (cell.begin_fitting _).2, fun mid _ => ?_⟩
    rcases cell.begin_standing fun i => (w.inputValue i).isUnset with ⟨-, hplan, -⟩ | ⟨hbegun, -⟩
    · exact .inl hplan
    · refine .inr (.inr (.inr ?_))
      rw [hbegun]
      exact List.mem_cons_self
  | advance hcell => exact h.advance hcomputes hcell (hnone _ hcell)
  | answer _ hcell hactive =>
    rw [hnone _ hcell] at hactive
    cases hactive
  | unregister hcell =>
    refine of_plan_eq_none fun cell' hcell' => ?_
    cases (cell?_putCell ..).symm.trans hcell'
    exact ⟨rfl, rfl⟩
  | @edit cell expression hcell =>
    refine of_plan_eq_none fun cell' hcell' => ?_
    cases (cell?_putCell ..).symm.trans hcell'
    refine ⟨?_, hnone cell hcell⟩
    have hquiet : w.agenda = [] := by
      rcases hop _ rfl with hwrites | ⟨id, answer, ⟨⟩⟩ | hquiet
      · exact hwrites.elim
      · exact hquiet
    rcases h.ends cell hcell [.operate (.setExpression c expression)] [] (by rw [hquiet]; rfl)
      (.inl rfl) with hplan | hactive | hmem | hmem
    · exact hplan
    · exact absurd (hnone cell hcell) hactive
    · cases List.mem_singleton.mp hmem
    · cases List.mem_singleton.mp hmem
  | @awake cell hcell =>
    have hagenda : ((w.putCell c { cell with automatic := true }).push
        [.cell c .evaluate, .releaseCell c]).agenda =
          [.cell c .evaluate, .releaseCell c] ++ w.agenda := rfl
    refine hstays hagenda (by simp) (fun driven heq => by cases heq)
      fun cell' hcell' => ⟨cell, hcell, ?_⟩
    cases (cell?_putCell ..).symm.trans hcell'
    exact ⟨rfl, rfl, rfl, rfl⟩

theorem of_same (h : w.Driven f c agenda) (hcells : w'.cells = w.cells)
    (hcommands : w'.commands = w.commands) : w'.Driven f c agenda := by
  have hcell : ∀ cell, w'.cell? c = some cell → w.cell? c = some cell := by
    intro cell hfound
    rwa [cell?, hcells] at hfound
  refine ⟨fun cell hfound => h.fitting cell (hcell cell hfound), fun cell id hfound hid => ?_,
    fun cell hfound => h.ends cell (hcell cell hfound)⟩
  have hpending := (h.asks cell id (hcell cell hfound) hid).pending
  rw [← hcommands] at hpending
  exact ⟨hpending⟩

theorem sweep (h : w.Driven f c w.agenda) : w.sweep.Driven f c w.sweep.agenda := by
  obtain ⟨cells, tree, hsweep, hcells⟩ := w.exists_sweep_eq
  rw [hsweep]
  exact ⟨fun cell hcell => h.fitting cell (hcells hcell),
    fun cell id hcell hid => ⟨(h.asks cell id (hcells hcell) hid).pending⟩,
    fun cell hcell => h.ends cell (hcells hcell)⟩

/-- When nothing is left to be done but one operation, no cell has a run, and no cell waits. -/
theorem idle (h : w.Driven f c agenda) (hagenda : agenda = [] ∨ ∃ op, agenda = [.operate op] ∧
      ∀ id answer, op ≠ .answer (some id) answer) (hcell : w.cell? c = some cell) :
    cell.plan = none ∧ cell.active = none := by
  have hactive : cell.active = none := by
    refine Option.eq_none_iff_forall_ne_some.mpr fun id hid => ?_
    obtain ⟨-, -, -, -, -, -, answer, hhead, -⟩ := (h.asks cell id hcell hid).pending
    rcases hagenda with rfl | ⟨op, rfl, hop⟩
    · cases hhead
    · cases hhead
      exact hop _ _ rfl
  refine ⟨?_, hactive⟩
  rcases h.ends cell hcell agenda [] (by simp) (.inl rfl) with hplan | hasks | hmem | hmem
  · exact hplan
  · exact absurd hactive hasks
  · rcases hagenda with rfl | ⟨op, rfl, -⟩
    · cases hmem
    · cases List.mem_singleton.mp hmem
  · rcases hagenda with rfl | ⟨op, rfl, -⟩
    · cases hmem
    · cases List.mem_singleton.mp hmem

/-- The expression of the cell stays the same up to results. -/
theorem blanked_perform (h : w.Driven f c agenda) (hcell : w.cell? c = some cell)
    (hnumbered : c < w.nextCell) (hcell' : (w.perform task).cell? c = some cell')
    (hedit : ∀ e, task ≠ .operate (.setExpression c e)) :
    cell'.expression.blanked = cell.expression.blanked := by
  have hcomplete : ∀ {plan : Plan} (value : Expr), cell.plan = some plan →
      (plan.complete cell.expression value).2.1.blanked = cell.expression.blanked :=
    fun value hplan => ((h.fitting cell hcell _ hplan).complete value).1
  cases perform_alters hcell (not_makes hnumbered task) hcell' with
  | invalidate => exact Expr.blanked_stripResults _
  | evaluate => exact congrArg Expr.blanked (cell.begin_fitting _).1
  | assign hplan => exact hcomplete _ hplan
  | answer value _ hplan => exact hcomplete value hplan
  | endBatch outer => cases outer <;> rfl
  | edit => exact absurd rfl (hedit _)
  | _ => rfl

end Driven

/-! ### Definitions that are handed over -/

/-- A definition that is going to be handed over to a cell is new. -/
theorem not_given_of_keepOutput (h : w.Ready) (hagenda : w.agenda = task :: rest)
    (htasks : (({ w with agenda := rest } : Workspace).perform task).agenda = tasks ++ rest)
    (hmem : .cell c (.keepOutput s name x) ∈ tasks) : ¬w.tree.Given s x := by
  have haffects := perform_affects (w := { w with agenda := rest }) h.tied.allConsistent task
  generalize ({ w with agenda := rest } : Workspace).perform task = w' at htasks haffects
  have hharmless : ∀ {w' : Workspace}, w'.agenda = tasks ++ rest →
      (∃ more, w'.agenda = more ++ rest ∧ Harmless more) → False := by
    rintro w' htasks ⟨more, hmore, hharmless⟩
    obtain rfl : tasks = more := List.append_cancel_right (htasks.symm.trans hmore)
    exact hharmless _ hmem
  cases haffects with
  | spare hspares => exact (hharmless htasks hspares.agenda).elim
  | write v hwritten =>
    exact (hharmless htasks (({ w with agenda := rest } : Workspace).write_same _ _ v).2.2.2).elim
  | @complete _ w₁ _ _ _ _ o v hspares =>
    obtain ⟨more, hmore, hharmless⟩ := hspares.agenda
    have heq : tasks = .write o.scope o.slot v :: more := by
      refine List.append_cancel_right (htasks.symm.trans ?_)
      rw [push, hmore]
      rfl
    rw [heq] at hmem
    exact (hharmless _ ((List.mem_cons.mp hmem).resolve_left (by rintro ⟨⟩))).elim
  | @promise _ keep tree s' x' readers more _ _ hfresh hpromised hmore =>
    have heq : tasks = .notifyReaders s' readers :: keep :: more :=
      List.append_cancel_right htasks.symm
    rw [heq] at hmem
    have hkeep : Task.cell c (.keepOutput s name x) = keep := by
      rcases List.mem_cons.mp hmem with heq | hmem
      · cases heq
      rcases List.mem_cons.mp hmem with heq | hmem
      · exact heq
      · exact (hmore _ hmem).elim
    subst hkeep
    cases hpromised
    obtain ⟨scope, hscope, hle⟩ := hfresh
    exact fun hgiven => Nat.lt_irrefl _ ((hgiven.2 scope hscope).trans_le hle)
  | keepDefinition | keepOutput =>
    have heq : tasks = [] := List.append_cancel_right (htasks.symm.trans (List.nil_append _).symm)
    rw [heq] at hmem
    cases hmem

/-- No task writes a definition before it is handed over. -/
def Unwritten (w : Workspace) : Prop :=
  ∀ (c : CellId) (s : ScopeId) (name : String) (x : SlotId) (v : SlotValue),
    .cell c (.keepOutput s name x) ∈ w.agenda → .write s x v ∉ w.agenda

theorem Unwritten.step (h : w.Unwritten) (hkept : w.WellKept) (hagenda : w.agenda = task :: rest) :
    w.step.Unwritten := by
  intro c s name x v hkeep hwrite
  obtain ⟨-, tasks, htasks, hwrites⟩ := hkept.exists_tasks hagenda
  rw [step_of_agenda hagenda, sweep_agenda, htasks] at hkeep hwrite
  rcases List.mem_append.mp hkeep with hmem | hmem
  · refine not_given_of_keepOutput hkept.ready hagenda htasks hmem ?_
    rcases List.mem_append.mp hwrite with hnew | hold
    · obtain ⟨c', cell', n, hcell', ho, -⟩ := hwrites s x v hnew
      exact ((hkept.ready.safe_cell hcell').output ho).given
    · obtain ⟨due, hcoherent⟩ := hkept.ready.coherent hagenda
      exact ScopeTree.LentSlot.given (hcoherent.safe hold)
  have hbefore : .cell c (.keepOutput s name x) ∈ w.agenda := by
    rw [hagenda]
    exact List.mem_cons_of_mem _ hmem
  rcases List.mem_append.mp hwrite with hnew | hold
  · obtain ⟨c', cell', n, hcell', ho, -⟩ := hwrites s x v hnew
    have hpromised : w.Owns w.agenda .promise s x :=
      List.mem_filterMap.mpr ⟨_, hbefore, rfl⟩
    have howns : w.Owns w.agenda (.output c' n) s x := ⟨cell', hcell', ho⟩
    cases hkept.apportioned.unique hpromised howns
  · refine h c s name x v hbefore ?_
    rw [hagenda]
    exact List.mem_cons_of_mem _ hold

/-! ### Runs -/

/-- A well-kept workspace whose backend answers every command at once, and the runs of whose cells are
at one place each. -/
structure Writing (w : Workspace) (f : Inputs → Expr → Outcome) : Prop where
  kept : w.WellKept
  computes : w.backend.Computes f
  driven : ∀ c, w.Driven f c w.agenda
  unwritten : w.Unwritten

namespace Writing

theorem start {backend : Backend} (hcomputes : backend.Computes f) :
    ({ backend } : Workspace).Writing f where
  kept := .start backend
  computes := hcomputes
  driven c := .of_plan_eq_none fun cell hcell => by simp [cell?] at hcell
  unwritten c s name x v hmem := by simp at hmem

theorem call (h : w.Writing f) (hquiet : w.agenda = []) (op : Op) : (w.call op).Writing f where
  kept := h.kept.call hquiet op
  computes := h.computes
  driven c := .of_plan_eq_none fun cell hcell => (h.driven c).idle (.inl hquiet) hcell
  unwritten c s name x v hmem := by simp [Workspace.call] at hmem

/-- A task that is next, before it is performed. -/
theorem pop (h : w.Writing f) (hagenda : w.agenda = task :: rest) (c : CellId) :
    ({ w with agenda := rest } : Workspace).Driven f c (task :: rest) :=
  hagenda ▸ (h.driven c).of_same rfl rfl

theorem step (h : w.Writing f) (hagenda : w.agenda = task :: rest) (hmeddles : w.meddles = false) :
    w.step.Writing f := by
  have hop : ∀ op, task = .operate op →
      op.Writes ∨ (∃ id answer, op = .answer (some id) answer) ∨ rest = [] := by
    rintro op rfl
    exact writes_or_answers hmeddles hagenda
  refine ⟨h.kept.step hagenda hop (fun {c cell cell'} hcell hcell' hedit => ?_)
    fun c cell id hcell hactive hnone => ?_, ?_, fun c => ?_, h.unwritten.step h.kept hagenda⟩
  · exact (h.pop hagenda c).blanked_perform hcell (h.kept.numbered hcell) hcell' hedit
  · have hasks := (h.pop hagenda c).asks cell id hcell hactive
    obtain ⟨plan, inputs, request, hplan, -, -, -, hperform⟩ := hasks.perform h.computes.channel
    have hfound : ({ w with
      agenda := rest, commands := w.commands.cancel id } : Workspace).cell? c = some cell := hcell
    rw [hperform]
    unfold receive
    simp only [hfound, hactive, ne_eq, not_true_eq_false, if_false]
    split
    · exact hnone
    · rw [hplan]
      simp [Workspace.push, Workspace.putCell, Task.replies, hnone, List.any_eq_false]
  · obtain ⟨cells, tree, hsweep, -⟩ :=
      (({ w with agenda := rest } : Workspace).perform task).exists_sweep_eq
    rw [step_of_agenda hagenda, hsweep, (h.kept.exists_tasks hagenda).1]
    exact h.computes
  · rw [step_of_agenda hagenda]
    exact ((h.pop hagenda c).perform h.computes hop).sweep

end Writing

/-- As long as operations within others only write definitions or answer commands, and the backend
answers at once, what cells have is in order and their runs are at one place each. -/
theorem Run.writing {may : Workspace → Prop} {past : List Event} {backend : Backend}
    (h : Run may { backend } past w) (hcomputes : backend.Computes f)
    (hmay : ∀ w, may w → w.meddles = false) : w.Writing f :=
  h.invariant (P := fun _ w => w.Writing f) (.start hcomputes)
    (fun _ w op hw hquiet => hw.call hquiet op) fun _ w task rest hw hw' hagenda => by
      rw [← step_of_agenda hagenda]
      exact hw.step hagenda (hmay w hw')

end Workspace

end MathCanvas
