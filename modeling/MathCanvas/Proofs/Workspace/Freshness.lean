import MathCanvas.Proofs.Workspace.Heralds

/-!
# Cells that are up to date

A cell evaluates with what its inputs observe at the time, but whether it has to evaluate again it
decides by what it remembers of them. So it may miss a change: an input observes another value, the
cell evaluates with it before it is told, and when it is told, the input observes again what the cell
remembers (`Workspace.revisits`, `Workspace.keeps_outdated_sum`).

If this does not happen to a cell that is done, its results and definitions are those to which a
recalculation from what its inputs observe now would lead (`Run.upToDate`), also if the client writes
definitions while it is told of others.
-/

namespace MathCanvas

/-- The inputs of a command, if `seen` says what the inputs of the cell observe. -/
def Cell.given (cell : Cell) (seen : String → SlotValue) : Inputs :=
  cell.inputs.toList.filterMap fun entry => (seen entry.1).defined?.map (entry.1, ·)

/-- A cell that begins to evaluate has a plan of its expression and values for its inputs, or it has
no plan and a status that says why. -/
theorem Cell.begin_cases (cell : Cell) (unset : CellInput → Bool) :
    (cell.begin unset).2.plan = none ∧ (cell.begin unset).2.status ≠ .done ∨
      ∃ plan, Plan.ofExpr cell.expression = .ok (some plan) ∧
        (cell.begin unset).2.plan = some plan ∧
          ∀ (name : String) (i : CellInput), cell.inputs[name]? = some i → unset i = false := by
  unfold Cell.begin
  cases cell.scope with
  | none => exact .inl ⟨rfl, by simp⟩
  | some s =>
    simp only
    cases hplan : Plan.ofExpr cell.expression with
    | error e => exact .inl ⟨rfl, by simp⟩
    | ok plan =>
      cases plan with
      | none => exact .inl ⟨rfl, by simp⟩
      | some plan =>
        simp only
        split
        · exact .inl ⟨rfl, by simp⟩
        · rename_i hset
          refine .inr ⟨plan, rfl, rfl, fun name i hi => Bool.eq_false_iff.mpr fun hunset => ?_⟩
          exact hset (List.any_eq_true.mpr ⟨i, (mem_values_iff_lookup _ _).mpr ⟨name, hi⟩, hunset⟩)

/-- What the cell is given if it sees the same. -/
theorem Cell.given_same {cell : Cell} {seen seen' : String → SlotValue}
    (h : ∀ (name : String) (i : CellInput), cell.inputs[name]? = some i →
      (seen name).same (seen' name)) :
    List.Forall₂ (fun a b => a.1 = b.1 ∧ (SlotValue.defined a.2).same (.defined b.2))
      (cell.given seen) (cell.given seen') := by
  have hentries : List.Forall₂ (fun a b => a = b ∧ a ∈ cell.inputs.toList)
      cell.inputs.toList cell.inputs.toList :=
    List.forall₂_same.mpr fun entry hentry => ⟨rfl, hentry⟩
  refine List.rel_filterMap ?_ hentries
  rintro ⟨name, i⟩ _ ⟨rfl, hentry⟩
  have hsame := h name i (Std.TreeMap.mem_toList_iff_getElem?_eq_some.mp hentry)
  show Option.Rel _ ((seen name).defined?.map _) ((seen' name).defined?.map _)
  cases hseen : seen name <;> cases hseen' : seen' name <;> rw [hseen, hseen'] at hsame <;>
    first | exact hsame.elim | exact .none | exact .some ⟨rfl, hsame⟩

theorem Cell.given_congr {cell cell' : Cell} (seen : String → SlotValue)
    (h : ∀ name : String, cell'.inputs[name]? = cell.inputs[name]?) :
    cell'.given seen = cell.given seen := by
  rw [given, given, (Std.TreeMap.Equiv.of_forall_constGet?_eq h).toList_eq]

theorem Plan.stages_of_finished {plan : Plan} {e : Expr} (h : plan.next e = .finished) :
    plan.stages = [] := by
  unfold Plan.next at h
  split at h
  · assumption
  · simp only at h
    split at h <;> cases h

namespace Workspace

variable {w w' : Workspace} {f : Inputs → Expr → Outcome} {c : CellId} {cell cell' : Cell}
  {id : CommandId} {task : Task} {tasks agenda rest more : List Task} {name : String}
  {i : CellInput} {o : CellOutput} {plan : Plan} {values : List (String × Expr)} {value : Expr}
  {seen : String → SlotValue}

/-- Whether an input of the cell comes to observe in the next step what the cell remembers of it,
after it has observed something else. -/
def revisits (w : Workspace) (c : CellId) : Bool :=
  (w.cell? c).any fun cell => cell.inputs.values.any fun i =>
    decide (¬i.last.same (w.inputValue i) ∧ i.last.same (w.step.inputValue i))

/-- What an input was seen to observe it observes still, or the cell remembers something else than
it observes. -/
def Glimpses (w : Workspace) (cell : Cell) (seen : String → SlotValue) : Prop :=
  ∀ (name : String) (i : CellInput), cell.inputs[name]? = some i →
    (seen name).same (w.inputValue i) ∨ ¬i.last.same (w.inputValue i)

/-- A value that a request comes to with inputs that were seen. -/
def Gives (w : Workspace) (f : Inputs → Expr → Outcome) (cell : Cell)
    (request value : Expr) : Prop :=
  ∃ seen, w.Glimpses cell seen ∧ f (cell.given seen) request = .ok value

/-- The cell has come to this plan and these values with inputs that were seen, and that had values
when it began. -/
structure Arrives (w : Workspace) (f : Inputs → Expr → Outcome) (cell : Cell) (plan : Plan)
    (values : List (String × Expr)) : Prop where
  begun : ∃ seen, w.Glimpses cell seen ∧
    ∀ (name : String) (i : CellInput), cell.inputs[name]? = some i → seen name ≠ .unset
  leads : ∃ e, Plan.Leads (w.Gives f cell) e plan cell.expression values

/-- The definitions of the cell have the values that were assigned to their names last, or the one
that has not is written next. -/
def Exported (w : Workspace) (cell : Cell) (agenda : List Task) (values : List (String × Expr)) :
    Prop :=
  ∀ (name : String) (o : CellOutput) (value : Expr), cell.outputs[name]? = some o →
    values.lookup name = some value →
      agenda.head? = some (.write o.scope o.slot (.defined value)) ∨
        (∀ v, agenda.head? ≠ some (.write o.scope o.slot v)) ∧
          (w.outputValue o).same (.defined value)

/-- The cell has what its expression names, and what it has come to it has come to with inputs that
were seen. -/
structure Timely (w : Workspace) (f : Inputs → Expr → Outcome) (cell : Cell) (agenda : List Task) :
    Prop where
  wants : cell.scope ≠ none → ∀ name k, (∃ s x, cell.Has name s x k) ↔ name ∈ cell.wants k
  asked : ∀ id command, cell.active = some id → w.commands.find? id = some command →
    ∃ seen, w.Glimpses cell seen ∧ command.inputs = cell.given seen
  arrives : cell.plan ≠ none ∨ cell.status = .done → ∃ plan values,
    (cell.plan = some plan ∨ cell.plan = none ∧ plan.stages = []) ∧
      w.Arrives f cell plan values ∧ w.Exported cell agenda values

/-- What the cell sees now. -/
theorem exists_glimpses (w : Workspace) (cell : Cell) : ∃ seen, w.Glimpses cell seen ∧
    w.definedInputs cell = cell.given seen ∧
      ∀ (name : String) (i : CellInput), cell.inputs[name]? = some i →
        seen name = w.inputValue i := by
  refine ⟨fun name => (cell.inputs[name]?).elim .unset w.inputValue, fun name i hi => .inl ?_, ?_,
    fun name i hi => ?_⟩
  · simp only [hi, Option.elim_some]
    exact SlotValue.same_refl _
  · refine List.filterMap_congr fun entry hentry => ?_
    have hi : cell.inputs[entry.1]? = some entry.2 :=
      Std.TreeMap.mem_toList_iff_getElem?_eq_some.mp hentry
    simp only [hi, Option.elim_some]
  · simp only [hi, Option.elim_some]

/-- A cell that has what it wants goes on to do so. -/
theorem Timely.wants_congr (htimely : w.Timely f cell w.agenda)
    (hinputs : ∀ name : String, cell'.inputs[name]? = cell.inputs[name]?)
    (houtputs : ∀ name : String, cell'.outputs[name]? = cell.outputs[name]?)
    (hscope : cell'.scope = cell.scope)
    (hblanked : cell'.expression.blanked = cell.expression.blanked) (hattached : cell'.scope ≠ none)
    (name : String) (k : Role) : (∃ s x, cell'.Has name s x k) ↔ name ∈ cell'.wants k := by
  rw [hscope] at hattached
  have hnames := Cell.wants_congr hblanked k
  rw [hnames, ← htimely.wants hattached name k]
  cases k with
  | definition => simp only [Cell.Has, houtputs]
  | reader => simp only [Cell.Has, Cell.reader?, hinputs]

/-! ### Steps -/

/-- A step of a workspace after which no task is going to begin the cell anew. -/
structure Stride (w : Workspace) (f : Inputs → Expr → Outcome) (c : CellId) (task : Task)
    (rest tasks : List Task) (cell cell' : Cell) : Prop where
  writing : w.Writing f
  writing' : w.step.Writing f
  heralded : w.Heralded c w.agenda
  unrevisited : w.revisits c = false
  agenda : w.agenda = task :: rest
  sets_off : (({ w with agenda := rest } : Workspace).perform task).agenda = tasks ++ rest
  present : w.cell? c = some cell
  present' : w.step.cell? c = some cell'
  unopened : ∀ next ∈ tasks ++ rest, ¬next.Reopens c

namespace Stride

theorem agenda' (h : w.Stride f c task rest tasks cell cell') : w.step.agenda = tasks ++ rest := by
  rw [step_of_agenda h.agenda, sweep_agenda, h.sets_off]

/-- The cell is what the task has made of it. -/
theorem performed (h : w.Stride f c task rest tasks cell cell') :
    (({ w with agenda := rest } : Workspace).perform task).cell? c = some cell' := by
  have hcell := h.present'
  rw [step_of_agenda h.agenda] at hcell
  exact (swept_sweep (h.writing.kept.ready.perform h.agenda).tied).cell hcell

theorem tasks_eq (h : w.Stride f c task rest tasks cell cell')
    (hmore : (({ w with agenda := rest } : Workspace).perform task).agenda = more ++ rest) :
    tasks = more := List.append_cancel_right (h.sets_off.symm.trans hmore)

theorem not_reopens (h : w.Stride f c task rest tasks cell cell') {next : Task}
    (hnext : next ∈ (({ w with agenda := rest } : Workspace).perform task).agenda) :
    ¬next.Reopens c := h.unopened next (h.sets_off ▸ hnext)

/-- What was seen stays seen. -/
theorem glimpses (h : w.Stride f c task rest tasks cell cell')
    (hinputs : ∀ name : String, cell'.inputs[name]? = cell.inputs[name]?)
    (hseen : w.Glimpses cell seen) : w.step.Glimpses cell' seen := by
  intro name i hi
  rw [hinputs] at hi
  by_cases hnow : i.last.same (w.step.inputValue i)
  swap
  · exact .inr hnow
  have hunrevisited := h.unrevisited
  rw [revisits, h.present, Option.any_some, List.any_eq_false] at hunrevisited
  have hbefore : i.last.same (w.inputValue i) := by
    have hi' := hunrevisited i ((mem_values_iff_lookup _ _).mpr ⟨name, hi⟩)
    rw [decide_eq_true_eq, not_and, not_imp_not] at hi'
    exact hi' hnow
  refine .inl (SlotValue.same_trans ((hseen name i hi).resolve_right (not_not.mpr hbefore)) ?_)
  exact SlotValue.same_trans (SlotValue.same_symm hbefore) hnow

theorem gives (h : w.Stride f c task rest tasks cell cell')
    (hinputs : ∀ name : String, cell'.inputs[name]? = cell.inputs[name]?) {request : Expr}
    (hgives : w.Gives f cell request value) : w.step.Gives f cell' request value := by
  obtain ⟨seen, hseen, hvalue⟩ := hgives
  exact ⟨seen, h.glimpses hinputs hseen, by rw [cell.given_congr seen hinputs, hvalue]⟩

theorem arrives (h : w.Stride f c task rest tasks cell cell')
    (hinputs : ∀ name : String, cell'.inputs[name]? = cell.inputs[name]?)
    (hexpression : cell'.expression = cell.expression) (harrives : w.Arrives f cell plan values) :
    w.step.Arrives f cell' plan values := by
  obtain ⟨⟨seen, hseen, hset⟩, e, hleads⟩ := harrives
  refine ⟨⟨seen, h.glimpses hinputs hseen, fun name i hi => hset name i (hinputs name ▸ hi)⟩, e, ?_⟩
  rw [hexpression]
  exact hleads.mono fun _ _ => h.gives hinputs

/-- What the cell has exported stays so, as long as nothing is going to be written. -/
theorem outputValue (h : w.Stride f c task rest tasks cell cell')
    (houtputs : ∀ name : String, cell'.outputs[name]? = cell.outputs[name]?)
    (hexported : w.Exported cell w.agenda values) (ho : cell.outputs[name]? = some o)
    (hvalue : values.lookup name = some value) : (w.step.outputValue o).same (.defined value) := by
  have ho' : cell'.outputs[name]? = some o := (houtputs name).trans ho
  rcases hexported name o value ho hvalue with hhead | ⟨hnot, hsame⟩
  · rw [h.agenda, List.head?_cons, Option.some.injEq] at hhead
    subst hhead
    exact h.writing.kept.outputValue_write h.agenda h.writing'.kept.posted h.present ho h.present'
      ho'
  · rw [h.agenda] at hnot
    rw [h.writing.kept.outputValue_step h.agenda h.writing'.kept.posted h.present ho h.present' ho'
      fun v heq => hnot v (by rw [heq, List.head?_cons])]
    exact hsame

theorem not_write_mem (h : w.Stride f c task rest tasks cell cell')
    (ho : cell.outputs[name]? = some o) (v : SlotValue) : .write o.scope o.slot v ∉ rest :=
  h.heralded.not_write_mem h.writing h.agenda
    (fun next hmem => h.unopened next (List.mem_append_right _ hmem)) h.present ho v

theorem exported (h : w.Stride f c task rest tasks cell cell')
    (houtputs : ∀ name : String, cell'.outputs[name]? = cell.outputs[name]?)
    (hwrite : ∀ {name : String} {o : CellOutput}, cell.outputs[name]? = some o →
      ∀ v, .write o.scope o.slot v ∉ tasks)
    (hexported : w.Exported cell w.agenda values) :
    w.step.Exported cell' w.step.agenda values := by
  intro name o value ho' hvalue
  have ho : cell.outputs[name]? = some o := (houtputs name).symm.trans ho'
  refine .inr ⟨fun v hhead => ?_, h.outputValue houtputs hexported ho hvalue⟩
  have hmem := List.mem_of_mem_head? hhead
  rw [h.agenda'] at hmem
  exact (List.mem_append.mp hmem).elim (hwrite ho v) (h.not_write_mem ho v)

/-- The cell is as it was. -/
theorem keep (h : w.Stride f c task rest tasks cell cell') (htimely : w.Timely f cell w.agenda)
    (hwrite : ∀ {name : String} {o : CellOutput}, cell.outputs[name]? = some o →
      ∀ v, .write o.scope o.slot v ∉ tasks)
    (hinputs : ∀ name : String, cell'.inputs[name]? = cell.inputs[name]?)
    (houtputs : ∀ name : String, cell'.outputs[name]? = cell.outputs[name]?)
    (hscope : cell'.scope = cell.scope) (hrun : cell'.SameRun cell) (hactive : cell.active = none) :
    w.step.Timely f cell' w.step.agenda where
  wants := htimely.wants_congr hinputs houtputs hscope (congrArg _ hrun.expression)
  asked id _ hid := by
    rw [hrun.active, hactive] at hid
    cases hid
  arrives hgoes := by
    rw [hrun.plan, hrun.status] at hgoes
    obtain ⟨plan, values, hplan, harrives, hexported⟩ := htimely.arrives hgoes
    refine ⟨plan, values, ?_, h.arrives hinputs hrun.expression harrives,
      h.exported houtputs hwrite hexported⟩
    rwa [hrun.plan]

/-- A value that the next stage takes is recorded. -/
theorem complete {old : Cell} (h : w.Stride f c task rest tasks cell (old.complete plan value).2)
    (htimely : w.Timely f cell w.agenda) (hplan : cell.plan = some plan)
    (hexpression : old.expression = cell.expression) (hinputs : old.inputs = cell.inputs)
    (houtputs : old.outputs = cell.outputs) (hscope : old.scope = cell.scope)
    (hactive : old.active = none)
    (htasks : tasks = (old.complete plan value).1.toList.map
      (fun o => Task.write o.scope o.slot (.defined value)) ++
        .cell c (.advance old.generation) :: more)
    (htakes : plan.Takes (w.Gives f cell) cell.expression value) :
    w.step.Timely f (old.complete plan value).2 w.step.agenda := by
  have hinputs' : ∀ name : String, (old.complete plan value).2.inputs[name]? = cell.inputs[name]? :=
    fun name => by rw [← hinputs]; rfl
  have houtputs' : ∀ name : String,
      (old.complete plan value).2.outputs[name]? = cell.outputs[name]? :=
    fun name => by rw [← houtputs]; rfl
  have hfits : plan.Fits old.expression :=
    hexpression ▸ (h.writing.driven c).fitting cell h.present plan hplan
  obtain ⟨found, values, hfound, ⟨⟨seen, hseen, hset⟩, e, hleads⟩, hexported⟩ :=
    htimely.arrives (.inl (by rw [hplan]; exact Option.some_ne_none plan))
  obtain rfl : plan = found := by
    rcases hfound with hfound | ⟨hnone, -⟩
    · exact Option.some.inj (hplan.symm.trans hfound)
    · cases hplan.symm.trans hnone
  refine ⟨htimely.wants_congr hinputs' houtputs' hscope
    ((hfits.complete value).1.trans (congrArg _ hexpression)), fun id _ hid => ?_, fun _ => ?_⟩
  · cases hactive.symm.trans hid
  refine ⟨_, (plan.complete old.expression value).1.toList.map (·, value) ++ values, .inl rfl,
    ⟨⟨seen, h.glimpses hinputs' hseen, fun name i hi => hset name i (hinputs' name ▸ hi)⟩, e, ?_⟩,
    ?_⟩
  · show Plan.Leads _ _ (plan.complete old.expression value).2.2
      (plan.complete old.expression value).2.1 _
    rw [hexpression]
    exact .stage (hleads.mono fun _ _ => h.gives hinputs') (htakes.mono fun _ _ => h.gives hinputs')
  -- the value goes to the output of its name, and the others stay
  intro name o v ho' hv
  have ho : cell.outputs[name]? = some o := (houtputs' name).symm.trans ho'
  have hothers : values.lookup name = some v → (w.step.outputValue o).same (.defined v) :=
    h.outputValue houtputs' hexported ho
  have houtput : (old.complete plan value).1 =
      (plan.complete old.expression value).1.bind (cell.outputs[·]?) := by
    rw [← houtputs]
    rfl
  rw [h.agenda', htasks, houtput]
  cases htarget : (plan.complete old.expression value).1 with
  | none =>
    rw [htarget] at hv
    exact .inr ⟨by simp, hothers hv⟩
  | some target =>
    rw [htarget] at hv
    simp only [Option.toList_some, List.map_cons, List.map_nil, List.singleton_append,
      List.lookup_cons] at hv
    by_cases hname : name = target
    · subst hname
      rw [beq_self_eq_true] at hv
      cases hv
      simp [ho]
    · rw [beq_eq_false_iff_ne.mpr hname] at hv
      refine .inr ⟨fun u hhead => ?_, hothers hv⟩
      cases hother : cell.outputs[target]? with
      | none => simp [hother] at hhead
      | some o' =>
        simp only [Option.bind_some, hother, Option.toList_some, List.map_cons, List.map_nil,
          List.cons_append, List.head?_cons, Option.some.injEq, Task.write.injEq] at hhead
        obtain ⟨hs, hx, -⟩ := hhead
        have has : cell.Has name o.scope o.slot .definition := ho
        have has' : cell.Has target o.scope o.slot .definition := by
          rw [← hs, ← hx]
          exact hother
        exact hname (h.writing.kept.posted.name_eq h.writing.kept.ready.tied.allConsistent h.present
          has has')

/-- The task does not set out to write what the cell has. -/
theorem unwritten (h : w.Stride f c task rest tasks cell cell') (hreopens : ¬task.Reopens c)
    (hadvance : ∀ g, task ≠ .cell c (.advance g)) (hactive : cell.active = none)
    (ho : cell.outputs[name]? = some o) (v : SlotValue) : .write o.scope o.slot v ∉ tasks := by
  by_cases hroused : ({ w with agenda := rest } : Workspace).Rouses c task
  swap
  · exact h.writing.kept.not_write_mem h.agenda hroused h.present ho h.sets_off v
  have hcell : ({ w with agenda := rest } : Workspace).cell? c = some cell := h.present
  cases hroused with
  | enter scope => exact absurd (.inr (.inr (.inr ⟨scope, rfl⟩))) hreopens
  | @answered before _ id answer hbefore hid =>
    cases hcell.symm.trans hbefore
    cases hactive.symm.trans hid
  | @told before n i u hbefore hi hawake =>
    have htold : ∃ more, (({ w with agenda := rest } : Workspace).tell u (.input c n)).agenda =
        more ++ rest ∧ .write o.scope o.slot v ∉ more := by
      unfold tell
      simp only [hbefore, hi]
      split
      · exact ⟨[], rfl, by simp⟩
      split
      · exact ⟨[], rfl, by simp⟩
      · exact ⟨_, rfl, by simp⟩
    obtain ⟨more, hmore, hnot⟩ := htold
    rwa [h.tasks_eq hmore]
  | @own driven hidle =>
    cases driven with
    | refresh => exact absurd (.inr (.inl rfl)) hreopens
    | reconsider | evaluate => exact absurd (.inl (by simp [Task.resumes])) hreopens
    | advance g => exact absurd rfl (hadvance g)
    | invalidate =>
      refine absurd (.inl rfl) (h.heralded.not_withdraws h.agenda fun next hmem => ?_)
      exact h.unopened next (List.mem_append_right _ hmem)
    | endBatch outer always =>
      have hmore := perform_cell hcell (.endBatch outer always)
      rw [h.tasks_eq (congrArg Workspace.agenda hmore)]
      split <;> simp
    | _ => cases hidle

/-- The cell has nothing left to do. -/
theorem finish (h : w.Stride f c task rest [] cell { cell with plan := none, status := .done })
    (htimely : w.Timely f cell w.agenda) (hplan : cell.plan = some plan)
    (hfinished : plan.next cell.expression = .finished) (hactive : cell.active = none) :
    w.step.Timely f { cell with plan := none, status := .done } w.step.agenda := by
  refine ⟨htimely.wants_congr (fun _ => rfl) (fun _ => rfl) rfl rfl, fun id _ hid => ?_, fun _ => ?_⟩
  · cases hactive.symm.trans hid
  obtain ⟨found, values, hfound, harrives, hexported⟩ :=
    htimely.arrives (.inl (by rw [hplan]; exact Option.some_ne_none plan))
  obtain rfl : plan = found := by
    rcases hfound with hfound | ⟨hnone, -⟩
    · exact Option.some.inj (hplan.symm.trans hfound)
    · cases hplan.symm.trans hnone
  refine ⟨plan, values, .inr ⟨rfl, Plan.stages_of_finished hfinished⟩,
    h.arrives (fun _ => rfl) rfl harrives, h.exported (fun _ => rfl) (by simp) hexported⟩

/-- The cell sends a command with what its inputs observe. -/
theorem send {request : Expr}
    (h : w.Stride f c task rest tasks cell
      { cell with active := some w.nextCommand, status := .evaluating })
    (htimely : w.Timely f cell w.agenda) (hplan : cell.plan = some plan)
    (hperform : ({ w with agenda := rest } : Workspace).perform task =
      ({ w with agenda := rest } : Workspace).dispatch c cell request) :
    w.step.Timely f { cell with active := some w.nextCommand, status := .evaluating }
      w.step.agenda := by
  have hunwritten : ∀ {s x v}, .write s x v ∉ tasks := by
    rw [h.tasks_eq (congrArg Workspace.agenda hperform)]
    simp
  refine ⟨htimely.wants_congr (fun _ => rfl) (fun _ => rfl) rfl rfl, fun id command hid hfind => ?_,
    fun _ => ?_⟩
  · cases hid
    obtain ⟨seen, hseen, hinputs, -⟩ := w.exists_glimpses cell
    obtain ⟨cells, tree, hsweep, -⟩ :=
      (({ w with agenda := rest } : Workspace).perform task).exists_sweep_eq
    rw [step_of_agenda h.agenda, hsweep, hperform] at hfind
    have hsent := (DispatchQueue.find?_dispatch w.commands w.nextCommand w.nextCommand
      ⟨c, ({ w with agenda := rest } : Workspace).definedInputs cell, request⟩).trans (if_pos rfl)
    cases hsent.symm.trans hfind
    exact ⟨seen, h.glimpses (fun _ => rfl) hseen, hinputs⟩
  · obtain ⟨found, values, hfound, harrives, hexported⟩ :=
      htimely.arrives (.inl (by rw [hplan]; exact Option.some_ne_none plan))
    exact ⟨found, values, hfound, h.arrives (fun _ => rfl) rfl harrives,
      h.exported (fun _ => rfl) (fun _ _ => hunwritten) hexported⟩

theorem advance {generation : Nat}
    (h : w.Stride f c (.cell c (.advance generation)) rest tasks cell cell')
    (htimely : w.Timely f cell w.agenda) (hactive : cell.active = none) :
    w.step.Timely f cell' w.step.agenda := by
  have hcell : ({ w with agenda := rest } : Workspace).cell? c = some cell := h.present
  have hperform := perform_cell hcell (.advance generation)
  have hstays : ({ w with agenda := rest } : Workspace).advance c cell generation =
      { w with agenda := rest } → w.step.Timely f cell' w.step.agenda := by
    intro hsame
    have hperformed := h.performed
    rw [hperform.trans hsame] at hperformed
    cases hcell.symm.trans hperformed
    have hnil : tasks = [] := h.tasks_eq (congrArg Workspace.agenda (hperform.trans hsame))
    exact h.keep htimely (by simp [hnil]) (fun _ => rfl) (fun _ => rfl) rfl (.refl cell) hactive
  by_cases hgeneration : cell.generation = generation
  swap
  · exact hstays (by rw [Workspace.advance, if_pos hgeneration])
  subst hgeneration
  cases hplan : cell.plan with
  | none => exact hstays (by rw [Workspace.advance, if_neg (not_not.mpr rfl), hplan])
  | some plan =>
    have hadvance : ({ w with agenda := rest } : Workspace).perform
          (.cell c (.advance cell.generation)) =
        ({ w with agenda := rest } : Workspace).advance c cell cell.generation := hperform
    rw [Workspace.advance, if_neg (not_not.mpr rfl), hplan] at hadvance
    simp only at hadvance
    split at hadvance
    · rename_i hnext
      have hperformed := h.performed
      rw [hadvance] at hperformed
      cases (cell?_putCell ..).symm.trans hperformed
      obtain rfl : tasks = [] := h.tasks_eq (congrArg Workspace.agenda hadvance)
      exact h.finish htimely hplan hnext hactive
    · rename_i request hnext
      have hperformed := h.performed
      rw [hadvance] at hperformed
      cases (cell?_putCell ..).symm.trans hperformed
      exact h.send htimely hplan hadvance
    · rename_i target value hnext
      have hperformed := h.performed
      rw [hadvance] at hperformed
      cases (cell?_putCell ..).symm.trans hperformed
      have htasks := h.tasks_eq (congrArg Workspace.agenda hadvance)
      refine h.complete htimely hplan rfl rfl rfl rfl hactive htasks ?_
      rw [Plan.Takes, hnext]

theorem answer (h : w.Stride f c task rest tasks cell cell')
    (htimely : w.Timely f cell w.agenda) (hactive : cell.active = some id) :
    w.step.Timely f cell' w.step.agenda := by
  obtain ⟨plan, inputs, request, hplan, hnext, hfind, -, hperform⟩ :=
    ((h.writing.pop h.agenda c).asks cell id h.present hactive).perform h.writing.computes.channel
  have hfound : ({ w with agenda := rest, commands := w.commands.cancel id } : Workspace).cell? c =
    some cell := h.present
  obtain ⟨seen, hseen, hinputs⟩ := htimely.asked id ⟨c, inputs, request⟩ hactive hfind
  unfold receive at hperform
  simp only [hfound, hactive, ne_eq, not_true_eq_false, if_false] at hperform
  have hperformed := h.performed
  rw [hperform] at hperformed
  split at hperform
  · rename_i hfailed
    rw [hfailed] at hperformed
    cases (cell?_putCell ..).symm.trans hperformed
    refine ⟨htimely.wants_congr (fun _ => rfl) (fun _ => rfl) rfl rfl, by simp, by simp⟩
  · rename_i value hvalue
    rw [hplan] at hperform
    rw [hvalue, hplan] at hperformed
    cases (cell?_putCell ..).symm.trans hperformed
    have htasks := h.tasks_eq (congrArg Workspace.agenda hperform)
    refine h.complete htimely hplan rfl rfl rfl rfl rfl htasks ?_
    rw [Plan.Takes, hnext]
    exact ⟨seen, hseen, hinputs ▸ hvalue⟩

/-- A cell that is at work has what it wants. -/
theorem wants_of_works (h : w.Stride f c task rest tasks cell cell') (hworks : task.works c = true)
    (hidle : AllIdle tasks) (hattached : cell'.scope ≠ none) (name : String) (k : Role) :
    (∃ s x, cell'.Has name s x k) ↔ name ∈ cell'.wants k := by
  refine h.writing'.kept.supplies.has_iff_mem_wants ?_ h.present' hattached name k
  have hapart := (h.writing.kept.resting c).apart
  rw [h.agenda, List.pairwise_cons] at hapart
  rw [h.agenda', List.any_append, hidle.any_equips, Bool.false_or]
  exact List.any_eq_false.mpr fun next hnext => Bool.eq_false_iff.mp (hapart.1 next hnext hworks)

/-- A cell begins to evaluate, or becomes stale. -/
theorem begins (h : w.Stride f c task rest tasks cell cell') (hreopens : task.Reopens c) :
    w.step.Timely f cell' w.step.agenda := by
  have hcell : ({ w with agenda := rest } : Workspace).cell? c = some cell := h.present
  have hdriven := h.writing.pop h.agenda c
  have hactive : ∀ driven, task = .cell c driven → cell.active = none := by
    rintro driven rfl
    refine Option.eq_none_iff_forall_ne_some.mpr fun id hid => ?_
    obtain ⟨-, -, -, -, -, -, answer, hhead, -⟩ := (hdriven.asks cell id hcell hid).pending
    cases hhead
  cases hresumes : task.resumes c with
  | false =>
    obtain ⟨next, hnext, hagain⟩ := Describes.perform_of_reopens hcell hreopens hresumes
    exact absurd hagain (h.not_reopens hnext)
  | true =>
  cases task with
  | cell c' driven =>
    cases driven with
    | reconsider =>
      obtain rfl : c' = c := eq_of_beq hresumes
      have hperform := perform_cell hcell .reconsider
      unfold performCell at hperform
      simp only at hperform
      split at hperform
      · have hnext : .cell c' .evaluate ∈
            (({ w with agenda := rest } : Workspace).perform (.cell c' .reconsider)).agenda := by
          rw [hperform]
          exact List.mem_cons_self
        exact absurd (.inl (by simp [Task.resumes])) (h.not_reopens hnext)
      have hperformed := h.performed
      rw [hperform] at hperformed
      cases (cell?_putCell ..).symm.trans hperformed
      obtain rfl : tasks = [] := h.tasks_eq (congrArg Workspace.agenda hperform)
      refine ⟨h.wants_of_works (by simp [Task.works, Task.rank]) (by simp [AllIdle]),
        fun id _ hid => ?_, fun hgoes => ?_⟩
      · cases (hactive _ rfl).symm.trans hid
      · refine absurd hgoes (not_or.mpr ⟨not_not.mpr ?_, ?_⟩)
        · refine (hdriven.ends cell hcell [] _ rfl (.inr ⟨_, rfl⟩)).resolve_right ?_
          simp [hactive _ rfl]
        · show cell.idleStatus ≠ .done
          unfold Cell.idleStatus
          split <;> simp
    | evaluate =>
      obtain rfl : c' = c := eq_of_beq hresumes
      have hperform := perform_cell hcell .evaluate
      have hperformed := h.performed
      rw [hperform] at hperformed
      have hbegun : (cell.begin fun i => (w.inputValue i).isUnset).2 = cell' :=
        Option.some.inj ((cell?_putCell ..).symm.trans hperformed)
      subst hbegun
      have htasks := h.tasks_eq (congrArg Workspace.agenda hperform)
      obtain ⟨hexpression, -⟩ := cell.begin_fitting fun i => (w.inputValue i).isUnset
      obtain ⟨hinputs, houtputs⟩ := cell.begin_same fun i => (w.inputValue i).isUnset
      refine ⟨h.wants_of_works (by simp [Task.works, Task.rank]) ?_, fun id _ hid => ?_,
        fun hgoes => ?_⟩
      · rw [htasks]
        simp [AllIdle, Task.rank]
      · cases ((cell.begin_run _).2.1.trans (hactive _ rfl)).symm.trans hid
      rcases cell.begin_cases fun i => (w.inputValue i).isUnset with
        ⟨hnone, hstatus⟩ | ⟨plan, hofExpr, hplan, hset⟩
      · exact absurd hgoes (not_or.mpr ⟨not_not.mpr hnone, hstatus⟩)
      obtain ⟨seen, hseen, -, hnow⟩ := w.exists_glimpses cell
      refine ⟨plan, [], .inl hplan, ⟨⟨seen, h.glimpses (fun name => by rw [hinputs]) hseen,
        fun name i hi hunset => ?_⟩, cell.expression, ?_⟩, fun name o value _ hvalue => ?_⟩
      · rw [hinputs] at hi
        have hvalue := hset name i hi
        rw [← hnow name i hi, hunset] at hvalue
        cases hvalue
      · rw [hexpression]
        exact .start hofExpr
      · simp at hvalue
    | _ => cases hresumes
  | _ => cases hresumes

/-- What is not done by the cell itself leaves it as it was, or makes it begin anew. -/
theorem passes (h : w.Stride f c task rest tasks cell cell') (htimely : w.Timely f cell w.agenda)
    (hclean : cell'.dirty = false) (hreopens : ¬task.Reopens c)
    (hadvance : ∀ g, task ≠ .cell c (.advance g)) (hactive : cell.active = none) :
    w.step.Timely f cell' w.step.agenda := by
  have hcell : ({ w with agenda := rest } : Workspace).cell? c = some cell := h.present
  have hkept := h.writing.kept
  have hnumbered : c < ({ w with agenda := rest } : Workspace).nextCell := hkept.numbered h.present
  have hkeep : ∀ {cell'}, w.Stride f c task rest tasks cell cell' →
      (∀ name : String, cell'.inputs[name]? = cell.inputs[name]?) →
      (∀ name : String, cell'.outputs[name]? = cell.outputs[name]?) → cell'.scope = cell.scope →
      cell'.SameRun cell → w.step.Timely f cell' w.step.agenda :=
    fun h hinputs houtputs hscope hrun =>
      h.keep htimely (h.unwritten hreopens hadvance hactive) hinputs houtputs hscope hrun hactive
  have hhas : ∀ {driven name k}, task = .cell c driven → driven.grants? = some (name, k) →
      cell.scope ≠ none → ∃ s x, cell.Has name s x k := by
    rintro driven name k rfl hgrants hattached
    exact (htimely.wants hattached name k).mpr
      (hkept.mem_wants_of_grants h.agenda hgrants h.present hattached)
  have hperformed := h.performed
  cases perform_alters hcell (not_makes hnumbered task) hperformed with
  | same => exact hkeep h (fun _ => rfl) (fun _ => rfl) rfl (.refl cell)
  | @told name i v hi hnews =>
    -- it takes note of the news, or refreshes
    have hawake : cell.suspended = false := (Bool.or_eq_false_iff.mp hclean).2
    have hnext : .cell c .refresh ∈
        (({ w with agenda := rest } : Workspace).tell v (.input c name)).agenda := by
      unfold tell
      simp [hcell, hi, hnews, hawake, push]
    exact absurd (.inr (.inl rfl)) (h.not_reopens hnext)
  | invalidate =>
    refine absurd (.inl rfl) (h.heralded.not_withdraws h.agenda fun next hmem => ?_)
    exact h.unopened next (List.mem_append_right _ hmem)
  | rest | evaluate => exact absurd (.inl (by simp [Task.resumes])) hreopens
  | finish | send | assign => exact absurd rfl (hadvance _)
  | fail _ hsome | drop hsome | answer _ hsome => exact absurd hactive hsome
  | enter scope => exact absurd (.inr (.inr (.inr ⟨scope, rfl⟩))) hreopens
  | synchronize =>
    have hperform := perform_cell hcell .synchronize
    unfold performCell at hperform
    rcases Option.eq_none_or_eq_some cell.scope with hscope | ⟨s, hscope⟩
    · simp only [hscope] at hperform
      rw [hperform] at hperformed
      have hsame := Option.some.inj (hcell.symm.trans hperformed)
      exact hkeep h (fun _ => by rw [← hsame]) (fun _ => by rw [← hsame]) rfl
        ⟨rfl, rfl, rfl, rfl, rfl⟩
    · simp only [hscope] at hperform
      obtain ⟨more, heq, -⟩ := ({ w with agenda := rest } : Workspace).synchronize_spec c cell s
      rw [hperform, heq] at hperformed
      have hsame := Option.some.inj ((cell?_putCell ..).symm.trans hperformed)
      obtain ⟨houtputs, hinputs⟩ := Cell.lookup_inStep fun {name k} =>
        (htimely.wants (by rw [hscope]; exact Option.some_ne_none s) name k).mp
      refine hkeep h (fun name => ?_) (fun name => ?_) rfl ⟨rfl, rfl, rfl, rfl, rfl⟩
      · rw [← hsame]
        exact hinputs name
      · rw [← hsame]
        exact houtputs name
  | keepOutput =>
    obtain ⟨hscope, hmissing, -⟩ := hkept.posted.keeping (h.agenda ▸ List.mem_cons_self) h.present
    obtain ⟨s, x, has⟩ := hhas rfl rfl (by rw [hscope]; exact Option.some_ne_none _)
    cases has.symm.trans hmissing
  | @addInput s name y i hmissing =>
    obtain ⟨hscope, -⟩ :=
      hkept.posted.adding (k := .reader) (h.agenda ▸ List.mem_cons_self) h.present
    obtain ⟨s, x, has⟩ := hhas rfl rfl (by rw [hscope]; exact Option.some_ne_none _)
    obtain ⟨i, hi, -⟩ := Cell.has_reader_iff.mp has
    cases hi.symm.trans hmissing
  | endBatch outer always =>
    cases outer with
    | true => exact absurd (h.agenda ▸ List.mem_cons_self) ((hkept.batched c).outermost always)
    | false => exact hkeep h (fun _ => rfl) (fun _ => rfl) rfl (Cell.SameRun.resumed cell false)
  | unregister scope =>
    rcases ({ w with agenda := rest } : Workspace).operate_setScope c scope with
      ⟨-, hsame⟩ | ⟨before, -, -, hmore⟩
    · have hnone : (({ w with agenda := rest } : Workspace).perform
          (.operate (.setScope c scope))).cell? c = some cell := by
        rw [perform, hsame]
        exact hcell
      have heq := Option.some.inj (hnone.symm.trans hperformed)
      rw [← heq] at h ⊢
      exact hkeep h (fun _ => rfl) (fun _ => rfl) rfl (.refl cell)
    · have hnext : .cell c (.enter scope) ∈
          (({ w with agenda := rest } : Workspace).perform
            (.operate (.setScope c scope))).agenda := by
        rw [perform, hmore]
        simp [push]
      exact absurd (.inr (.inr (.inr ⟨scope, rfl⟩))) (h.not_reopens hnext)
  | edit expression =>
    by_cases hheld : w.heldCells.contains c = true
    · have hnext : .cell c (.endBatch cell.suspended true) ∈
          (({ w with agenda := rest } : Workspace).perform
            (.operate (.setExpression c expression))).agenda := by
        show _ ∈ (({ w with agenda := rest } : Workspace).onHeldCell c _).agenda
        unfold onHeldCell onCell
        rw [if_pos hheld, hcell]
        simp [batch, push]
      exact absurd (.inr (.inr (.inl ⟨_, rfl⟩))) (h.not_reopens hnext)
    · have hsame : (({ w with agenda := rest } : Workspace).perform
          (.operate (.setExpression c expression))).cell? c = some cell := by
        show (({ w with agenda := rest } : Workspace).onHeldCell c _).cell? c = some cell
        unfold onHeldCell
        rw [if_neg hheld, hcell]
      have heq := Option.some.inj (hsame.symm.trans hperformed)
      rw [← heq] at h ⊢
      exact hkeep h (fun _ => rfl) (fun _ => rfl) rfl (.refl cell)
  | move | automate => exact hkeep h (fun _ => rfl) (fun _ => rfl) rfl ⟨rfl, rfl, rfl, rfl, rfl⟩

/-- A cell that has taken note of news refreshes afterwards. -/
theorem clean (h : w.Stride f c task rest tasks cell cell') (hclean : cell'.dirty = false) :
    cell.dirty = false := by
  have hcell : ({ w with agenda := rest } : Workspace).cell? c = some cell := h.present
  have hnumbered : c < ({ w with agenda := rest } : Workspace).nextCell :=
    h.writing.kept.numbered h.present
  cases perform_alters hcell (not_makes hnumbered task) h.performed with
  | told => exact (Bool.or_eq_false_iff.mp hclean).1
  | evaluate => exact (cell.begin_batch _).2 ▸ hclean
  | endBatch outer always =>
    cases outer with
    | true =>
      exact absurd (h.agenda ▸ List.mem_cons_self) ((h.writing.kept.batched c).outermost always)
    | false =>
      refine Bool.eq_false_iff.mpr fun hdirty => ?_
      have hnext : .cell c .refresh ∈ (({ w with agenda := rest } : Workspace).perform
          (.cell c (.endBatch false always))).agenda := by
        rw [perform_cell hcell]
        simp [performCell, Cell.resumed, hdirty, push]
      exact h.not_reopens hnext (.inr (.inl rfl))
  | _ => exact hclean

end Stride

/-! ### Runs -/

/-- Whatever withdraws what the cell has come to stands before a task that begins the cell anew, and
if there is no such task, and the cell has not taken note of news, it is fresh. -/
structure Current (w : Workspace) (f : Inputs → Expr → Outcome) (c : CellId) : Prop where
  heralded : w.Heralded c w.agenda
  timely : ∀ cell, w.cell? c = some cell → cell.dirty = false →
    (∀ next ∈ w.agenda, ¬next.Reopens c) → w.Timely f cell w.agenda

namespace Current

theorem start (backend : Backend) : ({ backend } : Workspace).Current f c where
  heralded task later hsuffix := by simp at hsuffix
  timely cell hcell := by simp [cell?] at hcell

theorem call (h : w.Current f c) (hquiet : w.agenda = []) (op : Op) : (w.call op).Current f c := by
  refine ⟨.call w c op, fun cell hcell hclean _ => ?_⟩
  obtain ⟨hwants, hasked, harrives⟩ := h.timely cell hcell hclean (by simp [hquiet])
  refine ⟨hwants, hasked, fun hgoes => ?_⟩
  obtain ⟨plan, values, hplan, hleads, hexported⟩ := harrives hgoes
  refine ⟨plan, values, hplan, ⟨hleads.begun, hleads.leads⟩, fun name o value ho hvalue => ?_⟩
  refine .inr ⟨by simp [Workspace.call], ?_⟩
  rcases hexported name o value ho hvalue with hhead | ⟨-, hsame⟩
  · simp [hquiet] at hhead
  · exact hsame

theorem step (h : w.Current f c) (hw : w.Writing f) (hw' : w.step.Writing f)
    (hagenda : w.agenda = task :: rest) (hunrevisited : w.revisits c = false) :
    w.step.Current f c := by
  refine ⟨h.heralded.step hw hagenda, fun cell' hcell' hclean hunopened => ?_⟩
  obtain ⟨-, tasks, htasks, -⟩ := hw.kept.exists_tasks hagenda
  have hagenda' : w.step.agenda = tasks ++ rest := by
    rw [step_of_agenda hagenda, sweep_agenda, htasks]
  have hfound : (({ w with agenda := rest } : Workspace).perform task).cell? c = some cell' := by
    rw [step_of_agenda hagenda] at hcell'
    exact (swept_sweep (hw.kept.ready.perform hagenda).tied).cell hcell'
  by_cases hmakes : ({ w with agenda := rest } : Workspace).Makes c task
  · obtain ⟨rfl, position, expression, scope, automatic, rfl⟩ := hmakes
    obtain ⟨generation, rfl⟩ := cell?_newCell hfound
    exact ⟨by simp, by simp, by simp⟩
  obtain ⟨cell, hcell⟩ := Option.ne_none_iff_exists'.mp
    ((perform_turn hmakes).numbered.2 (by rw [hfound]; exact Option.some_ne_none _))
  have hstride : w.Stride f c task rest tasks cell cell' :=
    ⟨hw, hw', h.heralded, hunrevisited, hagenda, htasks, hcell, hcell', hagenda' ▸ hunopened⟩
  by_cases hreopens : task.Reopens c
  · exact hstride.begins hreopens
  have htimely : w.Timely f cell w.agenda := by
    refine h.timely cell hcell (hstride.clean hclean) fun next hnext => ?_
    rw [hagenda] at hnext
    rcases List.mem_cons.mp hnext with rfl | hlater
    · exact hreopens
    · exact hstride.unopened next (List.mem_append_right _ hlater)
  cases hactive : cell.active with
  | some id => exact hstride.answer htimely hactive
  | none =>
    by_cases hadvance : ∃ g, task = .cell c (.advance g)
    · obtain ⟨g, rfl⟩ := hadvance
      exact hstride.advance htimely hactive
    · exact hstride.passes htimely hclean hreopens (not_exists.mp hadvance) hactive

end Current

/-- A value that a request may come to with what the inputs of the cell observe. -/
def Affords (w : Workspace) (f : Inputs → Expr → Outcome) (cell : Cell)
    (request value : Expr) : Prop :=
  ∃ inputs, List.Forall₂ (fun a b => a.1 = b.1 ∧ (SlotValue.defined a.2).same (.defined b.2))
    inputs (w.definedInputs cell) ∧ f inputs request = .ok value

/-- The inputs of the cell have values, and its results and definitions are those to which a
recalculation of its expression leads. -/
structure UpToDate (w : Workspace) (f : Inputs → Expr → Outcome) (cell : Cell) : Prop where
  wants : ∀ name k, (∃ s x, cell.Has name s x k) ↔ name ∈ cell.wants k
  set : ∀ (name : String) (i : CellInput), cell.inputs[name]? = some i → w.inputValue i ≠ .unset
  recalculated : ∃ plan values, plan.stages = [] ∧
    Plan.Leads (w.Affords f cell) cell.expression.stripResults plan cell.expression values ∧
      ∀ (name : String) (o : CellOutput), cell.outputs[name]? = some o →
        ∃ value, values.lookup name = some value ∧ (w.outputValue o).same (.defined value)

/-- If the client only writes while it is told, and no input of a cell comes to observe again what the
cell remembers of it before the cell is told otherwise, the cell is up to date whenever it is done. -/
theorem Run.upToDate {past : List Event} {backend : Backend}
    (h : Run (fun w => w.meddles = false ∧ w.revisits c = false) { backend } past w)
    (hcomputes : backend.Computes f) (hquiet : w.agenda = []) (hcell : w.cell? c = some cell)
    (hattached : cell.scope ≠ none) (hdone : cell.status = .done) : w.UpToDate f cell := by
  obtain ⟨hwriting, hcurrent⟩ : w.Writing f ∧ w.Current f c := by
    refine h.invariant (P := fun _ w => w.Writing f ∧ w.Current f c)
      ⟨.start hcomputes, .start backend⟩
      (fun _ w op hw hquiet => ⟨hw.1.call hquiet op, hw.2.call hquiet op⟩)
      fun _ w task rest hw hmay hagenda => ?_
    rw [← step_of_agenda hagenda]
    have hw' := hw.1.step hagenda hmay.1
    exact ⟨hw', hw.2.step hw.1 hw' hagenda hmay.2⟩
  have hawake : cell.suspended = false :=
    (hwriting.kept.batched c).not_suspended (by simp [hquiet]) hcell
  obtain ⟨hwants, -, harrives⟩ :=
    hcurrent.timely cell hcell (h.not_dirty hcell hawake) (by simp [hquiet])
  obtain ⟨plan, values, hplan, ⟨⟨seen, hseen, hset⟩, e, hleads⟩, hexported⟩ := harrives (.inr hdone)
  have hfinished : plan.stages = [] := by
    rcases hplan with hplan | ⟨-, hfinished⟩
    · cases ((hwriting.driven c).idle (.inl hquiet) hcell).1.symm.trans hplan
    · exact hfinished
  have hnow : ∀ {seen}, w.Glimpses cell seen → ∀ (name : String) (i : CellInput),
      cell.inputs[name]? = some i → (seen name).same (w.inputValue i) := by
    intro seen hseen name i hi
    refine (hseen name i hi).resolve_right (not_not.mpr ?_)
    exact hwriting.kept.last_same (by simp [hquiet]) (by simp [hquiet]) hcell hi
  have haffords : ∀ request value, w.Gives f cell request value →
      w.Affords f cell request value := by
    rintro request value ⟨seen, hseen, hvalue⟩
    obtain ⟨now, -, hinputs, hobserves⟩ := w.exists_glimpses cell
    refine ⟨_, ?_, hvalue⟩
    rw [hinputs]
    refine cell.given_same fun name i hi => ?_
    rw [hobserves name i hi]
    exact hnow hseen name i hi
  refine ⟨hwants hattached, fun name i hi hunset => hset name i hi ?_, plan, values, hfinished, ?_,
    fun name o ho => ?_⟩
  · have hsame := hnow hseen name i hi
    rw [hunset] at hsame
    cases hvalue : seen name with
    | unset => rfl
    | free | defined => rw [hvalue] at hsame; exact hsame.elim
  · refine (hleads.mono haffords).of_blanked ?_ hfinished
    exact hleads.blanked.1.symm.trans (Expr.blanked_stripResults _).symm
  · obtain ⟨value, hvalue⟩ := hleads.exists_lookup hfinished
      ((hwants hattached name .definition).mp ⟨o.scope, o.slot, ho⟩)
    refine ⟨value, hvalue, ?_⟩
    rcases hexported name o value ho hvalue with hhead | ⟨-, hsame⟩
    · simp [hquiet] at hhead
    · exact hsame

/-- A reader of `x` is told before the cell `z := x + y` is, and its subscription sets `y`. So the
cell evaluates with the new `x` before it is told of it. -/
theorem upToDate_sum :
    let two : Expr := .number (.ofInt 2)
    let ten : Expr := .number (.ofInt 10)
    let sum : Expr := .app "Assign" [.symbol "z", .app "Add" [.symbol "x", .symbol "y"]]
    let place (y : Int) : Position := ⟨.ofInt 0, .ofInt y⟩
    let react (n : Nat) (_ : SlotValue) : List Op := if n = 0 then [.set 1 ten] else []
    let defined := (((({ backend := .immediate } : Workspace).call
      (.addDefinition 0 "x" (place 0))).settle 4).call (.addDefinition 0 "y" (place 0))).settle 4
    let made := (defined.call (.newCell (place 5) sum (some 0) true)).settle 16
    let subscribed := ((made.call (.addReader 0 "x" (place 1))).step.call
      (.subscribe (.reader 0) react)).step
    let written := (subscribed.call (.set 0 two)).settle 45
    ∃ cell, written.cell? 0 = some cell ∧ written.definedInputs cell = [("x", two), ("y", ten)] ∧
      written.UpToDate Calculator.evaluate cell := by
  intro two ten sum place react defined made subscribed written
  have hdefined : Run (fun w => w.meddles = false ∧ w.revisits 0 = false) { backend := .immediate }
      _ defined :=
    ((((Run.refl.call (.addDefinition 0 "x" (place 0)) rfl).settle (by decide +kernel)).call
      (.addDefinition 0 "y" (place 0)) (by decide +kernel)).settle (by decide +kernel))
  have hmade : Run (fun w => w.meddles = false ∧ w.revisits 0 = false) { backend := .immediate }
      _ made :=
    (hdefined.call (.newCell (place 5) sum (some 0) true) (by decide +kernel)).settle
      (by decide +kernel)
  have hsubscribed : Run (fun w => w.meddles = false ∧ w.revisits 0 = false)
      { backend := .immediate } _ subscribed :=
    (((hmade.call (.addReader 0 "x" (place 1)) (by decide +kernel)).step (by decide +kernel)).call
      (.subscribe (.reader 0) react) (by decide +kernel)).step (by decide +kernel)
  have hwritten : Run (fun w => w.meddles = false ∧ w.revisits 0 = false) { backend := .immediate }
      _ written :=
    (hsubscribed.call (.set 0 two) (by decide +kernel)).settle (by decide +kernel)
  have hquiet : written.agenda = [] := by decide +kernel
  have hfound : (written.cell? 0).any (fun cell => decide (cell.scope ≠ none ∧ cell.status = .done ∧
      written.definedInputs cell = [("x", two), ("y", ten)])) = true := by decide +kernel
  obtain ⟨cell, hcell, hfound⟩ := (Option.any_eq_true _ _).mp hfound
  obtain ⟨hattached, hdone, hinputs⟩ := of_decide_eq_true hfound
  exact ⟨cell, hcell, hinputs, hwritten.upToDate Backend.computes_immediate hquiet hcell hattached
    hdone⟩

/-- A cell `z := x + y` that is told of `y` first is evaluated before it is told of `x`. When it is
told, `x` is what it was before, and that is what the cell remembers. It keeps the sum that it came
to in between. -/
theorem keeps_outdated_sum :
    let one : Expr := .number (.ofInt 1)
    let two : Expr := .number (.ofInt 2)
    let ten : Expr := .number (.ofInt 10)
    let twelve : Expr := .number (.ofInt 12)
    let place (y : Int) : Position := ⟨.ofInt 0, .ofInt y⟩
    let once (op : Op) (n : Nat) (_ : SlotValue) : List Op := if n = 0 then [op] else []
    let w := ((((((((((({ backend := .immediate } : Workspace).apply
      (.addDefinition 0 "x" (place 0))).2.apply (.set 0 one)).2.apply
      (.addDefinition 0 "y" (place 0))).2.apply (.set 1 one)).2.apply
      (.newCell (place 5) (.app "Assign" [.symbol "z", .app "Add" [.symbol "x", .symbol "y"]])
        (some 0) true)).2.apply
      (.addReader 0 "x" (place 1))).2.apply
      (.addReader 0 "y" (place 9))).2.apply
      (.subscribe (.reader 0) (once (.set 1 ten)))).2.apply
      (.subscribe (.reader 1) (once (.set 0 one)))).2.apply (.set 0 two)).2
    w.agenda = [] ∧ (w.cell? 0).map (·.status) = some .done ∧
      (w.cell? 0).map w.definedInputs = some [("x", one), ("y", ten)] ∧
      ((w.cell? 0).bind (·.outputs["z"]?)).map w.outputValue = some (.defined twelve) := by
  decide +kernel

end Workspace

end MathCanvas
