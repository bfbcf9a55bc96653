import MathCanvas.Proofs.Expr.Requests
import MathCanvas.Proofs.Workspace.Resting

/-!
# What the first command of a run brings along

A run begins when all that its cell reads has a value, and its first command is sent before anything
else happens (`Workspace.Fresh`). So this command brings along what its expression reads
(`Workspace.Chronicle.carries`): as it is sent, the cell is in step with its expression, and the
walk that finds the names of an expression agrees with the plan about them. In the same way every
assignment that is completed has its definition (`Workspace.Chronicle.exists_output`).
-/

namespace MathCanvas

variable {c : CellId} {cell cell' : Cell} {task : Task} {tasks agenda rest : List Task}

/-- A plan that has nothing to assign yet has something to ask for, until it gets a value. -/
theorem Plan.carried_complete {plan : Plan} (h : plan.carried = none → plan.stages ≠ [])
    (e value : Expr) : (plan.complete e value).2.2.carried ≠ none := by
  unfold complete
  cases hstages : plan.stages with
  | nil => exact fun hnone => h hnone hstages
  | cons stage rest =>
    simp only
    split <;> exact Option.some_ne_none value

/-- A run begins with the plan of the expression, when all that the cell reads has a value. -/
theorem Cell.begin_opens {unset : CellInput → Bool} {plan : Plan}
    (h : (cell.begin unset).2.plan = some plan) :
    (cell.begin unset).1 = some (cell.begin unset).2.generation ∧
      (cell.begin unset).2.scope ≠ none ∧
      Plan.ofExpr (cell.begin unset).2.expression = .ok (some plan) ∧
      ∀ (name : String) (i : CellInput), (cell.begin unset).2.inputs[name]? = some i →
        unset i = false := by
  unfold Cell.begin at h ⊢
  cases hscope : cell.scope with
  | none => simp [hscope] at h
  | some s =>
    simp only [hscope] at h ⊢
    cases hplan : Plan.ofExpr cell.expression with
    | error e => simp [hplan] at h
    | ok found =>
      cases found with
      | none => simp [hplan] at h
      | some found =>
        simp only [hplan] at h ⊢
        split at h
        · cases h
        · rename_i hset
          cases h
          rw [if_neg hset]
          refine ⟨rfl, by simp, hplan, fun name i hi => ?_⟩
          rw [Bool.not_eq_true, List.any_eq_false] at hset
          simpa using hset i ((mem_values_iff_lookup _ _).mpr ⟨name, hi⟩)

/-- A stage that assigns is completed by the value that it assigns. -/
theorem Cell.complete_assign {stage : Stage} {target : String} {o : CellOutput}
    (hkind : stage.kind = .assign target) (ho : cell.outputs[target]? = some o)
    (more : List Stage) (carried : Option Expr) (value : Expr) :
    (cell.complete ⟨stage :: more, carried⟩ value).1 = some o := by
  simp [Cell.complete, Plan.complete, hkind, ho]

theorem Cell.plan_complete (cell : Cell) (stage : Stage) (more : List Stage)
    (carried : Option Expr) (value : Expr) :
    (cell.complete ⟨stage :: more, carried⟩ value).2.plan = some ⟨more, some value⟩ := by
  simp only [Cell.complete, Plan.complete]
  cases stage.kind <;> rfl

/-- The run of a cell has done something. -/
def Cell.Underway (cell : Cell) : Prop :=
  cell.active ≠ none ∨ ∃ plan, cell.plan = some plan ∧ plan.carried ≠ none

namespace Workspace

variable {w w' : Workspace} {backend : Backend} {may : Workspace → Op → Prop} {deeds : List Deed}

/-! ### Runs that have not sent anything yet -/

/-- A run without a value, if it is about to go on, does so next, and nothing has changed since it
began. -/
structure Fresh (w : Workspace) (c : CellId) (agenda : List Task) (cell : Cell) : Prop where
  stages : ∀ plan, cell.plan = some plan → plan.carried = none → plan.stages ≠ []
  first : ∀ plan, cell.plan = some plan → plan.carried = none →
    .cell c (.advance cell.generation) ∈ agenda →
    agenda.head? = some (.cell c (.advance cell.generation)) ∧ cell.scope ≠ none ∧
      Plan.ofExpr cell.expression = .ok (some plan) ∧
      ∀ (name : String) (i : CellInput), cell.inputs[name]? = some i → w.inputValue i ≠ .unset

namespace Fresh

/-- No plan is there, or it has got a value. -/
theorem of_carried (h : ∀ plan, cell.plan = some plan → plan.carried ≠ none) :
    w.Fresh c agenda cell :=
  ⟨fun plan hplan hnone => absurd hnone (h plan hplan),
    fun plan hplan hnone => absurd hnone (h plan hplan)⟩

theorem of_none (h : cell.plan = none) : w.Fresh c agenda cell :=
  of_carried fun plan hplan => by rw [h] at hplan; cases hplan

/-- Once the first task is done, a run without a value does not go on, unless it begins. -/
theorem pop (h : w.Fresh c (task :: agenda) cell) (horder : Orderly c (task :: agenda) cell)
    (tasks : List Task) (hplan : cell'.plan = cell.plan)
    (hgeneration : cell'.generation = cell.generation)
    (htasks : .cell c (.advance cell.generation) ∉ tasks) : w'.Fresh c (tasks ++ agenda) cell' := by
  refine ⟨fun plan hplan' => h.stages plan (hplan ▸ hplan'), fun plan hplan' hnone hmem => ?_⟩
  rw [hgeneration] at hmem
  have hlater := (List.mem_append.mp hmem).resolve_left htasks
  obtain ⟨hhead, -⟩ := h.first plan (hplan ▸ hplan') hnone (List.mem_cons_of_mem _ hlater)
  rw [List.head?_cons, Option.some.injEq] at hhead
  subst hhead
  exact absurd hlater (not_mem_of_countP_eq_zero horder.vacant_of_advance.1.run)

theorem putCell (tasks : List Task) (h : w.Fresh c (tasks ++ w.agenda) cell) :
    ∀ found, ((w.putCell c cell).push tasks).cell? c = some found →
      ((w.putCell c cell).push tasks).Fresh c (tasks ++ w.agenda) found := by
  intro found hfound
  have hlookup : (w.putCell c cell).cell? c = some found := hfound
  rw [cell?_putCell, Option.some.injEq] at hlookup
  subst hlookup
  exact ⟨h.stages, h.first⟩

theorem advance {generation : Nat} (h : w.Fresh c (.cell c (.advance generation) :: w.agenda) cell)
    (horder : Orderly c (.cell c (.advance generation) :: w.agenda) cell)
    (hcell : w.cell? c = some cell) :
    ∀ found, (w.advance c cell generation).cell? c = some found →
      (w.advance c cell generation).Fresh c (w.advance c cell generation).agenda found := by
  have hstays : ∀ found, w.cell? c = some found → w.Fresh c w.agenda found := by
    intro found hfound
    cases hcell.symm.trans hfound
    exact h.pop horder [] rfl rfl (by simp)
  unfold Workspace.advance
  split
  · exact hstays
  split
  · exact hstays
  rename_i plan hplan
  split
  · exact putCell [] (of_none rfl)
  · intro found hfound
    have hlookup : (w.putCell c { cell with active := some w.nextCommand, status := .evaluating
      }).cell? c = some found := hfound
    rw [cell?_putCell, Option.some.injEq] at hlookup
    subst hlookup
    exact h.pop horder _ rfl rfl (by simp)
  · refine putCell _ (of_carried fun plan' hplan' => ?_)
    cases hplan'
    exact Plan.carried_complete (h.stages plan hplan) _ _

theorem receive {id : CommandId} (h : w.Fresh c agenda cell) (hcell : w.cell? c = some cell)
    (hactive : cell.active = some id) (outcome : Outcome) :
    ∀ found, (w.receive id c outcome).cell? c = some found →
      (w.receive id c outcome).Fresh c (w.receive id c outcome).agenda found := by
  unfold Workspace.receive
  rw [hcell]
  simp only [hactive, ne_eq, not_true_eq_false, if_false]
  split
  · exact putCell [] (of_none rfl)
  · split
    · rename_i hplan
      exact putCell [] (of_none hplan)
    · rename_i plan hplan
      refine putCell _ (of_carried fun plan' hplan' => ?_)
      cases hplan'
      exact Plan.carried_complete (h.stages plan hplan) _ _

/-- One task keeps the runs of a cell fresh that have not sent anything. -/
theorem perform (h : ∀ cell, w.cell? c = some cell → w.Fresh c (task :: w.agenda) cell)
    (horder : w.InOrder c (task :: w.agenda)) (hmakes : ¬w.Makes c task) :
    ∀ found, (w.perform task).cell? c = some found →
      (w.perform task).Fresh c (w.perform task).agenda found := by
  have hturn := perform_turn hmakes
  generalize w.perform task = w' at hturn ⊢
  cases hturn with
  | leave hidle hleaves =>
    intro found hfound
    obtain ⟨cell, hcell, hsame⟩ := hleaves.cell hfound
    obtain ⟨tasks, hagenda, htasks⟩ := hleaves.agenda
    exact hagenda ▸ (h cell hcell).pop (horder cell hcell) tasks hsame.plan
      hsame.generation (htasks.not_mem rfl)
  | @renew before _ next more hcell hidle hnext hmore =>
    intro found hfound
    refine (h found hfound).pop (horder found hfound) _ rfl rfl ?_
    rcases hnext with rfl | rfl <;> simpa using hmore.not_mem rfl
  | invalidate hcell => exact putCell _ (of_none rfl)
  | reconsider hcell =>
    intro found hfound
    exact (h found hfound).pop (horder found hfound) [_] rfl rfl (by simp)
  | @rest cell hcell =>
    refine putCell [] ?_
    exact (h cell hcell).pop (horder cell hcell) _ rfl rfl (by simp)
  | @evaluate cell hcell =>
    refine putCell _ ?_
    cases hplan : (cell.begin fun i => (w.inputValue i).isUnset).2.plan with
    | none => exact of_none hplan
    | some plan =>
      obtain ⟨hsome, hattached, hopens, hset⟩ := Cell.begin_opens hplan
      rw [hsome]
      refine ⟨fun plan' hplan' hnone => ?_, fun plan' hplan' hnone _ => ?_⟩
      · cases hplan.symm.trans hplan'
        intro hnil
        obtain ⟨request, hrequest, -⟩ := Plan.next_first hopens
        rw [Plan.next, hnil] at hrequest
        cases hrequest
      · cases hplan.symm.trans hplan'
        refine ⟨rfl, hattached, hopens, fun name i hi hunset => ?_⟩
        have hvalue := hset name i hi
        rw [hunset] at hvalue
        cases hvalue
  | @advance cell generation hcell => exact advance (h cell hcell) (horder cell hcell) hcell
  | @answer op id cell outcome hcell hactive hanswers =>
    have hcancelled : ({ w with commands := w.commands.cancel id } : Workspace).Fresh c
        (.operate op :: w.agenda) cell := ⟨(h cell hcell).stages, (h cell hcell).first⟩
    exact hcancelled.receive hcell hactive outcome
  | unregister hcell hmore => exact putCell _ (of_none rfl)
  | @edit cell expression hcell =>
    intro found hfound
    have hlookup : (w.putCell c { cell with expression, suspended := true }).cell? c
      = some found := hfound
    rw [cell?_putCell, Option.some.injEq] at hlookup
    subst hlookup
    exact (h cell hcell).pop (horder cell hcell) [.cell c .synchronize,
      .cell c (.endBatch cell.suspended true), .releaseCell c] rfl rfl (by simp)
  | @awake cell hcell hstale =>
    refine putCell _ ?_
    exact (h cell hcell).pop (horder cell hcell) _ rfl rfl (by simp)

/-- What a cell reads keeps its value while the workspace is swept. -/
theorem inputValue_sweep_ne_unset (htied : w.tree.WellTied)
    (hposted : w.sweep.Posted w.sweep.agenda) (hsafe : cell.Safe w.tree)
    (hcell : w.sweep.cell? c = some cell) {name : String} {i : CellInput}
    (hi : cell.inputs[name]? = some i) (hset : w.inputValue i ≠ .unset) :
    w.sweep.inputValue i ≠ .unset := by
  obtain ⟨-, y, hy, -⟩ := hposted.entry hcell (Cell.has_reader_iff.mpr ⟨i, hi, rfl, rfl⟩)
  have hswept := swept_sweep htied
  obtain ⟨scope, hscope, hanchor⟩ := Option.bind_eq_some_iff.mp hy.1
  obtain ⟨now, hnow⟩ := (hswept.tied.consistent hscope).exists_readerValue? hanchor
  have hafter : w.sweep.tree.readerValue? i.scope i.reader = some now := by
    rw [ScopeTree.readerValue?, hscope, Option.bind_some, hnow]
  obtain ⟨before, hbefore, hsame⟩ :=
    (hswept.recedes.passes i.scope).told (hsafe.input hi).given hafter
  have hsame := hsame.resolve_right (by simp)
  rintro hunset
  have hnone : now = .unset := by
    rw [← hunset]
    show now = (w.sweep.tree.readerValue? i.scope i.reader).getD .unset
    rw [hafter, Option.getD_some]
  subst hnone
  refine hset ?_
  show (w.tree.readerValue? i.scope i.reader).getD .unset = .unset
  rw [hbefore, Option.getD_some]
  exact SlotValue.same_unset_iff.mp (SlotValue.same_symm hsame)

theorem sweep (h : ∀ cell, w.cell? c = some cell → w.Fresh c w.agenda cell)
    (htied : w.tree.WellTied) (hposted : w.sweep.Posted w.sweep.agenda)
    (hsafe : ∀ {c : CellId} {cell : Cell}, w.cell? c = some cell → cell.Safe w.tree) :
    ∀ cell, w.sweep.cell? c = some cell → w.sweep.Fresh c w.sweep.agenda cell := by
  intro cell hcell
  have hbefore : w.cell? c = some cell := (swept_sweep htied).cell hcell
  refine ⟨(h cell hbefore).stages, fun plan hplan hnone hmem => ?_⟩
  rw [sweep_agenda] at hmem ⊢
  obtain ⟨hhead, hattached, hopens, hset⟩ := (h cell hbefore).first plan hplan hnone hmem
  exact ⟨hhead, hattached, hopens, fun name i hi =>
    inputValue_sweep_ne_unset htied hposted (hsafe hbefore) hcell hi (hset name i hi)⟩

end Fresh

/-! ### Chronicles -/

/-- In a chronicle a run that has not sent anything yet is about to do so, as it began. -/
theorem Chronicle.fresh (h : Chronicle backend may deeds w) (hprompt : backend.Prompt)
    (hcell : w.cell? c = some cell) : w.Fresh c w.agenda cell := by
  induction h generalizing cell with
  | start => simp [cell?] at hcell
  | call op _ hquiet _ _ ih =>
    exact ⟨(ih hcell).stages, fun plan _ _ hmem => by simp [Workspace.call] at hmem⟩
  | @step deeds w task rest hbefore hagenda ih =>
    have hposted := (hbefore.step hagenda).posted hprompt
    have hpoised := hbefore.poised hprompt hagenda
    have hready := (hbefore.exists_run hprompt).1.ready.perform hagenda
    rw [step_of_agenda hagenda] at hcell hposted ⊢
    refine Fresh.sweep (fun found hfound => ?_) hready.tied hposted (fun hfound => hready.safe_cell
      hfound) cell hcell
    by_cases hmakes : ({ w with agenda := rest } : Workspace).Makes c task
    · obtain ⟨rfl, position, expression, scope, automatic, rfl⟩ := hmakes
      obtain ⟨-, -, -, new, tasks, hnew, -, hplan, -⟩ :=
        ({ w with agenda := rest } : Workspace).operate_newCell position expression scope automatic
      exact .of_none (Option.some.inj (hfound.symm.trans hnew) ▸ hplan)
    · refine Fresh.perform (fun cell hcell => ?_) (hpoised.settled c).inOrder hmakes found hfound
      have hfresh := ih hcell
      rw [hagenda] at hfresh
      exact ⟨hfresh.stages, hfresh.first⟩

/-- If the run of a cell is under way, the cell has sent a command in it. -/
def Opened (deeds : List Deed) (c : CellId) (cell : Cell) : Prop :=
  cell.Underway → ∃ id leg, .sent c id leg ∈ deeds ∧ leg.generation = cell.generation

theorem Opened.append (h : Opened deeds c cell) (more : List Deed)
    (hunderway : cell'.Underway → cell.Underway)
    (hgeneration : cell'.generation = cell.generation) : Opened (deeds ++ more) c cell' := by
  intro hcell'
  obtain ⟨id, leg, hsent, hleg⟩ := h (hunderway hcell')
  exact ⟨id, leg, List.mem_append_left _ hsent, hleg.trans hgeneration.symm⟩

theorem Opened.of_idle (h : ¬cell.Underway) : Opened deeds c cell := fun hcell => absurd hcell h

theorem Opened.perform (h : Opened deeds c cell) (hcell : w.cell? c = some cell)
    (horder : Orderly c (task :: agenda) cell) (halters : w.Alters c cell task cell') :
    Opened (deeds ++ w.deeds task) c cell' := by
  cases halters with
  | same | told | rest | enter | synchronize | keepOutput | addInput | edit | move | automate =>
    exact h.append _ id rfl
  | endBatch outer always =>
    have hsame := Cell.SameRun.resumed cell outer
    refine h.append _ (fun hunderway => ?_) hsame.generation
    rwa [Cell.Underway, hsame.active, hsame.plan] at hunderway
  | invalidate | unregister | fail => exact .of_idle (by simp [Cell.Underway, Cell.invalidated,
      Cell.unregistered])
  | drop hactive hplan => exact .of_idle (by simp [Cell.Underway, hplan])
  | evaluate =>
    refine .of_idle ?_
    obtain ⟨-, hactive, hrun⟩ := cell.begin_run fun i => (w.inputValue i).isUnset
    rintro (hsome | ⟨plan, hplan, hcarried⟩)
    · exact hsome (hactive.trans (horder.active_of_resumes (by simp [Task.resumes])))
    · rcases hrun with hnone | ⟨-, hnone⟩
      · rw [(Cell.begin_opens hplan).1] at hnone
        cases hnone
      · exact hcarried (hnone plan hplan)
  | finish => exact h.append _ (fun hunderway => .inl (hunderway.resolve_right (by simp))) rfl
  | @send plan e hplan hrequest =>
    intro _
    refine ⟨w.nextCommand, cell.leg, List.mem_append_right _ ?_, rfl⟩
    simp [Workspace.deeds, hcell, Cell.request?, hplan, hrequest]
  | @assign plan target value hplan hassigns =>
    refine h.append _ (fun _ => .inr ⟨plan, hplan, fun hnone => ?_⟩) rfl
    exact plan.next_ne_assign hnone hassigns
  | answer value hactive => exact h.append _ (fun _ => .inl hactive) rfl

/-- In a chronicle a run that is under way has sent a command. -/
theorem Chronicle.opened (h : Chronicle backend may deeds w) (hprompt : backend.Prompt)
    (hcell : w.cell? c = some cell) : Opened deeds c cell := by
  induction h generalizing cell with
  | start => simp [cell?] at hcell
  | call op _ _ _ _ ih => exact ih hcell
  | @step deeds w task rest hbefore hagenda ih =>
    have hpoised := hbefore.poised hprompt hagenda
    rw [step_of_agenda hagenda] at hcell
    obtain ⟨cells, tree, hsweep, hcells⟩ :=
      (({ w with agenda := rest } : Workspace).perform task).exists_sweep_eq
    rw [hsweep] at hcell
    have hperformed := hcells hcell
    by_cases hmakes : ({ w with agenda := rest } : Workspace).Makes c task
    · obtain ⟨rfl, position, expression, scope, automatic, rfl⟩ := hmakes
      obtain ⟨-, -, -, new, tasks, hnew, hactive, hplan, -⟩ :=
        ({ w with agenda := rest } : Workspace).operate_newCell position expression scope automatic
      cases hperformed.symm.trans hnew
      exact .of_idle (by simp [Cell.Underway, hactive, hplan])
    · obtain ⟨before, hfound⟩ := Option.ne_none_iff_exists'.mp
        ((perform_turn hmakes).numbered.2 (by rw [hperformed]; rintro ⟨⟩))
      exact (ih hfound).perform hfound ((hpoised.settled c).inOrder before hfound)
        (perform_alters hfound hmakes hperformed)

/-! ### Runs that go on -/

/-- A task with which the run of a cell goes on. -/
inductive GoesOn (w : Workspace) (c : CellId) (cell : Cell) : Task → Prop
  | advance : GoesOn w c cell (.cell c (.advance cell.generation))
  | answer {op : Op} {id : CommandId} (active : cell.active = some id)
      (answers : w.answered? op = some id) : GoesOn w c cell (.operate op)

/-- An answer is given while its command is dispatched, or when nothing is in progress. -/
theorem Poised.replies_or_quiet {op : Op} {id : CommandId} (h : w.Poised (.operate op))
    (hanswers : w.answered? op = some id) :
    (Task.operate op).replies id = true ∨ w.agenda = [] := by
  rcases h.operations op List.mem_cons_self with ⟨id', answer, rfl, -⟩ | ⟨-, heq⟩
  · left
    unfold answered? at hanswers
    simp only at hanswers
    split at hanswers
    · rw [Option.some_or] at hanswers
      simpa [Task.replies] using hanswers
    · cases hanswers
  · exact .inr (List.cons.inj heq).2

/-- When the run of a cell goes on, it follows a plan of the expression. -/
theorem Chronicle.fitting (h : Chronicle backend may deeds w) (hprompt : backend.Prompt)
    (hagenda : w.agenda = task :: rest) (hcell : w.cell? c = some cell)
    (htask : ({ w with agenda := rest } : Workspace).GoesOn c cell task) : cell.Fitting := by
  have hpoised := h.poised hprompt hagenda
  obtain ⟨e, out, hkeeps, hout⟩ := h.exists_preserves hprompt (by rw [hcell]; rintro ⟨⟩)
  refine (hkeeps.cell hcell).followed.resolve_right ?_
  rintro ⟨⟨soon, renewal, later, heq, hrenews, hsoon⟩, hactive⟩
  rw [hagenda] at heq hout
  cases htask with
  | advance =>
    cases soon with
    | nil =>
      obtain ⟨rfl, -⟩ := List.cons.inj heq
      simp [Task.Renews] at hrenews
    | cons first soon =>
      obtain ⟨rfl, -⟩ := List.cons.inj heq
      exact hsoon List.mem_cons_self
  | @answer op id active answers =>
    rw [active] at hactive
    have hnone := (hout id (hactive.resolve_left (by rintro ⟨⟩)).symm).2
    rcases hpoised.replies_or_quiet answers with hreplies | rfl
    · rw [List.any_cons, hreplies] at hnone
      cases hnone
    · have hmem : renewal ∈ [Task.operate op] := heq ▸ List.mem_append_right _ List.mem_cons_self
      rw [List.mem_singleton] at hmem
      subst hmem
      simp [Task.Renews] at hrenews

/-- When the run of a cell goes on, the cell is in step with its expression. -/
theorem Chronicle.any_equips (h : Chronicle backend may deeds w) (hprompt : backend.Prompt)
    (hagenda : w.agenda = task :: rest) (hcell : w.cell? c = some cell)
    (htask : ({ w with agenda := rest } : Workspace).GoesOn c cell task) :
    w.agenda.any (Task.equips c) = false := by
  have hpoised := h.poised hprompt hagenda
  have hresting := h.resting hprompt c
  rw [hagenda] at hresting ⊢
  cases htask with
  | advance =>
    rw [List.any_cons, Task.equips_of_idle rfl, Bool.false_or, List.any_eq_false]
    intro later hmem
    rw [Bool.not_eq_true]
    exact (List.pairwise_cons.mp hresting.apart).1 later hmem (by simp [Task.works, Task.rank])
  | @answer op id active answers =>
    rcases hpoised.replies_or_quiet answers with hreplies | rfl
    · rw [Bool.eq_false_iff]
      intro hany
      have hnone := hresting.unanswered hany cell id hcell active
      rw [List.any_cons, hreplies] at hnone
      cases hnone
    · rfl

/-! ### What is brought along -/

/-- A command brings along the values of the names that its expression reads, as far as they are not
free, and all of them are set. -/
structure Brings (w : Workspace) (cell : Cell) (command : Command) : Prop where
  set : ∀ name ∈ command.expression.readNames, ∃ i : CellInput,
    cell.inputs[name]? = some i ∧ w.inputValue i ≠ .unset
  names : ∀ name, (∃ v, (name, v) ∈ command.inputs) ↔ name ∈ command.expression.readNames ∧
    ∃ i : CellInput, cell.inputs[name]? = some i ∧ w.inputValue i ≠ .free
  values : ∀ name v, (name, v) ∈ command.inputs → ∃ i : CellInput,
    cell.inputs[name]? = some i ∧ w.inputValue i = .defined v

/-- The inputs that are defined. -/
theorem mem_definedInputs {name : String} {v : Expr} : (name, v) ∈ w.definedInputs cell ↔
    ∃ i : CellInput, cell.inputs[name]? = some i ∧ w.inputValue i = .defined v := by
  rw [definedInputs, List.mem_filterMap]
  constructor
  · rintro ⟨⟨n, i⟩, hmem, heq⟩
    obtain ⟨v', hv', heq⟩ := Option.map_eq_some_iff.mp heq
    cases heq
    refine ⟨i, Std.TreeMap.mem_toList_iff_getElem?_eq_some.mp hmem, ?_⟩
    cases hvalue : w.inputValue i <;> simp_all [SlotValue.defined?]
  · rintro ⟨i, hi, hvalue⟩
    exact ⟨(name, i), Std.TreeMap.mem_toList_iff_getElem?_eq_some.mpr hi, by
      simp [hvalue, SlotValue.defined?]⟩

theorem Brings.of_inputs {e : Expr} (hnames : ∀ name, name ∈ e.readNames ↔
      ∃ i : CellInput, cell.inputs[name]? = some i)
    (hset : ∀ (name : String) (i : CellInput), cell.inputs[name]? = some i →
      w.inputValue i ≠ .unset) :
    w.Brings cell ⟨c, w.definedInputs cell, e⟩ where
  set name hname := by
    obtain ⟨i, hi⟩ := (hnames name).mp hname
    exact ⟨i, hi, hset name i hi⟩
  names name := by
    simp only [mem_definedInputs]
    constructor
    · rintro ⟨v, i, hi, hvalue⟩
      exact ⟨(hnames name).mpr ⟨i, hi⟩, i, hi, by rw [hvalue]; rintro ⟨⟩⟩
    · rintro ⟨-, i, hi, hfree⟩
      cases hvalue : w.inputValue i with
      | free => exact absurd hvalue hfree
      | unset => exact absurd hvalue (hset name i hi)
      | defined v => exact ⟨v, i, hi, hvalue⟩
  values name v := mem_definedInputs.mp

/-- The first command of a run brings along what its expression reads. -/
theorem Chronicle.exists_brings {id : CommandId} {leg : Leg} (h : Chronicle backend may deeds w)
    (hprompt : backend.Prompt) (hagenda : w.agenda = task :: rest)
    (hsent : .sent c id leg ∈ ({ w with agenda := rest } : Workspace).deeds task)
    (hfirst : ∀ id' leg', .sent c id' leg' ∈ deeds → leg'.generation ≠ leg.generation) :
    ∃ cell command, w.cell? c = some cell ∧ cell.scope ≠ none ∧ command.cell = c ∧
      w.step.history = w.history ++ [.dispatched id command] ∧ w.Brings cell command := by
  have hpoised := h.poised hprompt hagenda
  have hhandles := perform_handles (w := { w with agenda := rest }) hpoised.prompt.onCancel task
  rw [step_of_agenda hagenda]
  generalize hperformed : ({ w with agenda := rest } : Workspace).perform task = w',
    ({ w with agenda := rest } : Workspace).deeds task = ds at hhandles hsent
  cases hhandles with
  | leave hquiet => cases hquiet _ hsent
  | take _ _ _ _ hdeed =>
    obtain rfl := List.mem_singleton.mp hsent
    rcases hdeed with heq | heq <;> cases heq
  | cancel | withdraw | ignore => cases List.mem_singleton.mp hsent
  | @send c' cell e hcell hrequest =>
    cases List.mem_singleton.mp hsent
    have hcell : w.cell? c = some cell := hcell
    have hnot : ¬cell.Underway := by
      intro hunderway
      obtain ⟨id', leg', hearlier, hleg⟩ := h.opened hprompt hcell hunderway
      exact hfirst id' leg' hearlier hleg
    obtain ⟨plan, hplan, hnext⟩ : ∃ plan, cell.plan = some plan ∧
        plan.next cell.expression = .request e := by
      unfold Cell.request? at hrequest
      split at hrequest
      · rename_i hmap
        cases hrequest
        exact Option.map_eq_some_iff.mp hmap
      · cases hrequest
    have hcarried : plan.carried = none := by
      by_contra hsome
      exact hnot (.inr ⟨plan, hplan, hsome⟩)
    obtain ⟨-, hattached, hopens, hset⟩ := (h.fresh hprompt hcell).first plan hplan hcarried
      (hagenda ▸ List.mem_cons_self)
    obtain ⟨request, hrequest', hreads⟩ := Plan.next_first hopens
    cases hnext.symm.trans hrequest'
    have hnone := h.any_equips hprompt hagenda hcell .advance
    refine ⟨cell, ⟨c, w.definedInputs cell, e⟩, hcell, hattached, rfl, ?_, .of_inputs
      (fun name => ?_) hset⟩
    · obtain ⟨cells, tree, hsweep, -⟩ :=
        (({ w with agenda := rest } : Workspace).dispatch c cell e).exists_sweep_eq
      rw [hsweep]
      rfl
    · rw [hreads]
      refine (h.has_iff_mem_wants hprompt hnone hcell hattached name .reader).symm.trans ?_
      constructor
      · rintro ⟨s, x, has⟩
        obtain ⟨i, hi, -⟩ := Cell.has_reader_iff.mp has
        exact ⟨i, hi⟩
      · rintro ⟨i, hi⟩
        exact ⟨_, _, Cell.has_reader_iff.mpr ⟨i, hi, rfl, rfl⟩⟩

/-! ### Stages that are completed -/

/-- The next step completes a stage in the run of a cell. -/
def Completes (w : Workspace) (c : CellId) (stage : Stage) (value : Expr) : Prop :=
  ∃ cell cell' more carried, w.cell? c = some cell ∧ w.step.cell? c = some cell' ∧
    cell'.generation = cell.generation ∧ cell.plan = some ⟨stage :: more, carried⟩ ∧
    cell'.plan = some ⟨more, some value⟩

/-- A value is assigned to an output that the cell has. -/
structure Assigns (w : Workspace) (cell : Cell) (target : String) (value : Expr) (o : CellOutput) :
    Prop where
  output : cell.outputs[target]? = some o
  scope : cell.scope = some o.scope
  enrolled : ∃ y, w.tree.Enrolled o.scope o.slot target y .definition
  write : w.step.agenda.head? = some (.write o.scope o.slot (.defined value))

theorem ne_of_plan_eq {stage : Stage} {more : List Stage} {carried value : Option Expr}
    (h : cell.plan = some ⟨stage :: more, carried⟩) (h' : cell'.plan = some ⟨more, value⟩) :
    cell'.plan ≠ cell.plan := by
  intro heq
  rw [heq, h, Option.some.injEq, Plan.mk.injEq] at h'
  exact List.cons_ne_self stage more h'.1

/-- The run of a cell goes on when it completes a stage, and if the stage assigns, the output gets
the value next. -/
theorem Turn.goesOn {stage : Stage} {more : List Stage} {carried : Option Expr} {value : Expr}
    (hturn : w.Turn c task w') (hcell : w.cell? c = some cell) (hcell' : w'.cell? c = some cell')
    (hgeneration : cell'.generation = cell.generation)
    (hplan : cell.plan = some ⟨stage :: more, carried⟩)
    (hplan' : cell'.plan = some ⟨more, some value⟩) :
    w.GoesOn c cell task ∧ ∀ target o, stage.kind = .assign target →
      cell.outputs[target]? = some o →
      w'.agenda.head? = some (.write o.scope o.slot (.defined value)) := by
  have hother := ne_of_plan_eq hplan hplan'
  have hput : ∀ {new : Cell}, (w.putCell c new).cell? c = some cell' → cell' = new := fun h =>
    Option.some.inj (h.symm.trans (cell?_putCell _ _ _))
  cases hturn with
  | leave _ hleaves =>
    obtain ⟨before, hbefore, hsame⟩ := hleaves.cell hcell'
    cases hcell.symm.trans hbefore
    exact absurd hsame.plan hother
  | renew | reconsider =>
    cases hcell.symm.trans hcell'
    exact absurd rfl hother
  | invalidate hbefore | unregister hbefore =>
    cases hcell.symm.trans hbefore
    cases hput hcell'
    cases hplan'
  | rest hbefore | edit hbefore | awake hbefore =>
    cases hcell.symm.trans hbefore
    cases hput hcell'
    exact absurd rfl hother
  | evaluate hbefore =>
    cases hcell.symm.trans hbefore
    cases hput hcell'
    rw [(cell.begin_run _).1] at hgeneration
    exact absurd hgeneration (Nat.succ_ne_self _)
  | advance hbefore =>
    cases hcell.symm.trans hbefore
    unfold Workspace.advance at hcell' ⊢
    split at hcell'
    · cases hcell.symm.trans hcell'
      exact absurd rfl hother
    rename_i hrun
    rw [not_not] at hrun
    subst hrun
    refine ⟨.advance, fun target o hkind ho => ?_⟩
    rw [if_neg (not_not.mpr rfl)]
    rw [hplan] at hcell' ⊢
    simp only [Plan.next, hkind] at hcell' ⊢
    cases carried with
    | none =>
      have hsent : cell' = { cell with active := some w.nextCommand, status := .evaluating } :=
        hput hcell'
      exact absurd (congrArg Cell.plan hsent) hother
    | some carried =>
      cases hput hcell'
      rw [Cell.plan_complete] at hplan'
      cases hplan'
      simp only [Cell.complete_assign hkind ho]
      rfl
  | @answer op id before outcome hbefore hactive hanswers =>
    cases hcell.symm.trans hbefore
    refine ⟨.answer hactive hanswers, fun target o hkind ho => ?_⟩
    unfold Workspace.receive at hcell' ⊢
    have hsame : ({ w with commands := w.commands.cancel id } : Workspace).cell? c = some cell :=
      hcell
    rw [hsame] at hcell' ⊢
    simp only [hactive, ne_eq, not_true_eq_false, if_false, hplan] at hcell' ⊢
    cases outcome with
    | error e =>
      cases hput hcell'
      cases hplan'
    | ok v =>
      cases hput hcell'
      rw [Cell.plan_complete] at hplan'
      cases hplan'
      have houtput : ∀ plan, (Cell.complete { cell with plan, active := none }
          ⟨stage :: more, carried⟩ value).1 = some o :=
        fun _ => Cell.complete_assign hkind ho more carried value
      simp only [houtput]
      rfl

/-- A completed assignment has its definition. -/
theorem Chronicle.exists_assigns {stage : Stage} {value : Expr} {target : String}
    (h : Chronicle backend may deeds w) (hprompt : backend.Prompt)
    (hcompletes : w.Completes c stage value) (hkind : stage.kind = .assign target)
    (hcell : w.cell? c = some cell) (hattached : cell.scope ≠ none) :
    ∃ o, w.Assigns cell target value o := by
  obtain ⟨before, cell', more, carried, hbefore, hcell', hgeneration, hplan, hplan'⟩ := hcompletes
  cases hcell.symm.trans hbefore
  cases hagenda : w.agenda with
  | nil =>
    rw [Workspace.step, hagenda] at hcell'
    cases hcell.symm.trans hcell'
    exact absurd rfl (ne_of_plan_eq hplan hplan')
  | cons task rest =>
    have hpoised := h.poised hprompt hagenda
    rw [step_of_agenda hagenda] at hcell'
    obtain ⟨cells, tree, hsweep, hcells⟩ :=
      (({ w with agenda := rest } : Workspace).perform task).exists_sweep_eq
    rw [hsweep] at hcell'
    obtain ⟨hgoes, hwrite⟩ := (perform_turn (not_makes (hpoised.numbered hcell) task)).goesOn hcell
      (hcells hcell') hgeneration hplan hplan'
    have hname : target ∈ cell.expression.writtenNames :=
      (h.fitting hprompt hagenda hcell hgoes _ hplan).mem_writtenNames List.mem_cons_self hkind
    obtain ⟨s, x, has⟩ := (h.has_iff_mem_wants hprompt (h.any_equips hprompt hagenda hcell hgoes)
      hcell hattached target .definition).mpr hname
    obtain ⟨hscope, y, hy, -⟩ := (h.posted hprompt).entry hcell has
    refine ⟨⟨s, x⟩, has, hscope, ⟨y, hy⟩, ?_⟩
    rw [step_of_agenda hagenda, sweep_agenda]
    exact hwrite target ⟨s, x⟩ hkind has

/-- The requests and assignments of a cell are provided with what they need. -/
structure Provides (w : Workspace) (deeds : List Deed) (c : CellId) : Prop where
  /-- The first command of a run. -/
  first : ∀ {task : Task} {rest : List Task} {id : CommandId} {leg : Leg}, w.agenda = task :: rest →
    .sent c id leg ∈ ({ w with agenda := rest } : Workspace).deeds task →
    (∀ id' leg', .sent c id' leg' ∈ deeds → leg'.generation ≠ leg.generation) →
    ∃ cell command, w.cell? c = some cell ∧ cell.scope ≠ none ∧ command.cell = c ∧
      w.step.history = w.history ++ [.dispatched id command] ∧ w.Brings cell command
  completed : ∀ {stage : Stage} {value : Expr} {target : String} {cell : Cell},
    w.Completes c stage value → stage.kind = .assign target → w.cell? c = some cell →
    cell.scope ≠ none → ∃ o, w.Assigns cell target value o

/-- The plan of every expression agrees with the names that it reads and writes. So in every
chronicle, the first command of a run brings along what its expression reads, and no assignment is
completed without its definition. -/
theorem provides : (∀ e plan, Plan.ofExpr e = .ok (some plan) → plan.Agrees e) ∧
    ∀ {backend : Backend} {may : Workspace → Op → Prop} {deeds : List Deed} {w : Workspace},
      backend.Prompt → Chronicle backend may deeds w → ∀ c, w.Provides deeds c :=
  ⟨fun _ _ h => .of_ofExpr h, fun hprompt h _ =>
    ⟨h.exists_brings hprompt, h.exists_assigns hprompt⟩⟩

/-- The cell `y := x + 1` asks for `x + 1` and brings along the value of `x`. When it has the
answer, it completes the assignment to `y`. -/
theorem provides_sum :
    let five : Expr := .number (.ofInt 5)
    let six : Expr := .number (.ofInt 6)
    let e : Expr := .app "Assign" [.symbol "y", .app "Add" [.symbol "x", .number (.ofInt 1)]]
    let defined := (((({ backend := .recording } : Workspace).call
      (.addDefinition 0 "x" .origin)).settle 4).call (.set 0 five)).settle 4
    let asking := (defined.call (.newCell ⟨.ofInt 0, .ofInt 5⟩ e (some 0) true)).settle 14
    let answering := (asking.settle 2).call (.answer (some 0) (.outcome (.ok six)))
    (∃ plan, Plan.ofExpr e = .ok (some plan) ∧ plan.Agrees e) ∧
      (∃ cell command, asking.step.history = asking.history ++ [.dispatched 0 command] ∧
        command = ⟨0, [("x", five)], .app "Add" [.symbol "x", .number (.ofInt 1)]⟩ ∧
        asking.Brings cell command) ∧
      ∃ cell o, answering.Completes 0 ⟨[1], .assign "y"⟩ six ∧
        answering.Assigns cell "y" six o := by
  intro five six e defined asking answering
  have hprompt : Backend.recording.Prompt := ⟨fun _ _ _ => nofun, fun _ => rfl⟩
  obtain ⟨hagrees, hprovides⟩ := provides
  let stage : Stage := ⟨[1], .assign "y"⟩
  have hplan : Plan.ofExpr e = .ok (some ⟨[stage], none⟩) := by decide +kernel
  have hdefined : Chronicle .recording (fun _ _ => True) _ defined :=
    (((Chronicle.start.call (.addDefinition 0 "x" .origin) rfl not_false trivial).settle 4).call
      (.set 0 five) (by decide +kernel) not_false trivial).settle 4
  have hquiet : defined.agenda = [] := by decide +kernel
  obtain ⟨deeds, hdeeds, hasking⟩ : ∃ deeds, deeds = [.invalidated 0] ∧
      Chronicle .recording (fun _ _ => True) deeds asking :=
    ⟨_, by decide +kernel, (hdefined.call (.newCell ⟨.ofInt 0, .ofInt 5⟩ e (some 0) true) hquiet
      not_false trivial).settle 14⟩
  refine ⟨⟨_, hplan, hagrees e _ hplan⟩, ?_, ?_⟩
  · have hcoming : asking.coming 1 = [.sent 0 0 ⟨3, some ⟨[stage], none⟩⟩] := by decide +kernel
    have hcommand : asking.step.history =
        asking.history ++ [.dispatched 0 ⟨0, [("x", five)], .app "Add" [.symbol "x",
          .number (.ofInt 1)]⟩] := by decide +kernel
    obtain ⟨task, rest, hagenda⟩ : ∃ task rest, asking.agenda = task :: rest :=
      List.exists_cons_of_ne_nil (by decide +kernel)
    rw [coming, hagenda] at hcoming
    simp only [coming, List.append_nil] at hcoming
    obtain ⟨cell, command, -, -, -, hhistory, hbrings⟩ := (hprovides hprompt hasking 0).first
      hagenda (by rw [hcoming]; exact List.mem_singleton_self _) (by simp [hdeeds])
    refine ⟨cell, command, hhistory, ?_, hbrings⟩
    rw [hcommand] at hhistory
    simpa using (List.append_cancel_left hhistory).symm
  · have hanswering : Chronicle .recording (fun _ _ => True) _ answering :=
      (hasking.settle 2).call (.answer (some 0) (.outcome (.ok six))) (by decide +kernel) not_false
        trivial
    have hbefore : (answering.cell? 0).map (fun cell => (cell.generation, cell.plan, cell.scope)) =
        some (3, some ⟨[stage], none⟩, some 0) := by decide +kernel
    have hafter : (answering.step.cell? 0).map (fun cell => (cell.generation, cell.plan)) =
        some (3, some ⟨[], some six⟩) := by decide +kernel
    obtain ⟨cell, hcell, hbefore⟩ := Option.map_eq_some_iff.mp hbefore
    obtain ⟨cell', hcell', hafter⟩ := Option.map_eq_some_iff.mp hafter
    simp only [Prod.mk.injEq] at hbefore hafter
    have hcompletes : answering.Completes 0 stage six :=
      ⟨cell, cell', [], none, hcell, hcell', hafter.1.trans hbefore.1.symm, hbefore.2.1, hafter.2⟩
    obtain ⟨o, ho⟩ := (hprovides hprompt hanswering 0).completed hcompletes rfl hcell
      (by rw [hbefore.2.2]; rintro ⟨⟩)
    exact ⟨cell, o, hcompletes, ho⟩

end Workspace

end MathCanvas
