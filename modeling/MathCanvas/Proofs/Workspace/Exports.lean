import MathCanvas.Proofs.Expr.Following
import MathCanvas.Proofs.Workspace.Integrity
import MathCanvas.Proofs.Workspace.Orderly
import MathCanvas.Proofs.Workspace.Owners

/-!
# What a failed cell exports

The outputs of a cell are cleared when the cell is invalidated, and get values one after the other
while its plan is followed. So a cell that fails has exported what the stages before the failure
assigned, and nothing else: these are names that are assigned inside an inline evaluation
(`Expr.innerTargets`), because only an inline evaluation can fail after an assignment.
`Run.unset_of_failed` says so of all runs in which no cell begins a run during a refresh of it, and
`failed_exports_inner` is a failed cell that has exported such a name.
-/

namespace MathCanvas

/-! ### Names that are assigned inside an inline evaluation -/

def Stage.isInline (stage : Stage) : Bool :=
  match stage.kind with
  | .assign _ => false
  | .inline _ _ => true

namespace Plan

variable {plan : Plan} {e : Expr} {stages rest : List Stage} {name : String}

/-- The names that are assigned before an inline stage. -/
def innerTargets : List Stage → List String
  | [] => []
  | stage :: rest =>
    (if rest.any Stage.isInline then stage.target?.toList else []) ++ innerTargets rest

theorem mem_innerTargets (hrest : rest.any Stage.isInline = true)
    (hname : name ∈ stages.filterMap Stage.target?) : name ∈ innerTargets (stages ++ rest) := by
  induction stages with
  | nil => simp at hname
  | cons stage stages ih =>
    have hany : (stages ++ rest).any Stage.isInline = true := by
      rw [List.any_append, hrest, Bool.or_true]
    rw [List.cons_append, innerTargets, if_pos hany, List.mem_append]
    rw [← List.singleton_append, List.filterMap_append, List.mem_append] at hname
    refine hname.imp (fun hfirst => ?_) ih
    obtain ⟨stage', hstage', htarget⟩ := List.mem_filterMap.mp hfirst
    cases List.mem_singleton.mp hstage'
    rw [htarget]
    exact List.mem_singleton_self name

/-- What has to be computed is the value of the first stage, or of an inline one. -/
theorem request_cases {expression : Expr} (h : plan.next e = .request expression) :
    plan.carried = none ∨ plan.stages.any Stage.isInline = true := by
  unfold next at h
  cases hplan : plan.stages with
  | nil => simp [hplan] at h
  | cons stage rest =>
    rw [hplan] at h
    simp only at h
    split at h
    · cases h
    · rename_i hcarried
      exact .inl hcarried
    · rename_i hkind
      exact .inr (by simp [Stage.isInline, hkind])

end Plan

/-- The names that are assigned inside an inline evaluation of the chain. -/
def Expr.innerTargets (e : Expr) : List String :=
  match Plan.stagesOf e.chain.reverse with
  | .ok stages => Plan.innerTargets stages
  | .error _ => []

/-! ### Names that are exported -/

/-- An output may have a value: a stage that is done assigned it, or the whole plan was followed, or
the plan up to an evaluation that failed. -/
def Cell.Exports (cell : Cell) (name : String) : Prop :=
  (∃ plan stages, cell.plan = some plan ∧ plan.After cell.expression stages ∧
    name ∈ stages.filterMap Stage.target? ∧ cell.status = .evaluating) ∨
  cell.plan = none ∧
    (cell.status = .done ∨ cell.status = .failed ∧ name ∈ cell.expression.innerTargets)

/-- A run begins with the whole plan. -/
theorem Cell.begin_after {cell : Cell} {unset : CellInput → Bool} {plan : Plan}
    (hplan : plan ∈ (cell.begin unset).2.plan) : plan.After (cell.begin unset).2.expression [] := by
  rw [(cell.begin_fitting unset).1]
  unfold Cell.begin at hplan
  cases hscope : cell.scope with
  | none => simp [hscope] at hplan
  | some s =>
    rw [hscope] at hplan
    simp only at hplan
    cases hof : Plan.ofExpr cell.expression with
    | error e => simp [hof] at hplan
    | ok found =>
      cases found with
      | none => simp [hof] at hplan
      | some found =>
        rw [hof] at hplan
        simp only at hplan
        split at hplan
        · cases hplan
        · cases hplan
          exact Plan.after_of_ofExpr hof

/-- Whether a task is going to clear an output of a cell. -/
def Task.Clears (c : CellId) (o : CellOutput) (task : Task) : Prop :=
  task = .write o.scope o.slot .unset ∨ task.Renews c

theorem CellOutput.eq_of_pair {o o' : CellOutput} (h : (o.scope, o.slot) = (o'.scope, o'.slot)) :
    o = o' := by
  cases o
  cases o'
  cases h
  rfl

namespace Workspace

variable {w w' : Workspace} {c : CellId} {cell cell' : Cell} {name : String} {o : CellOutput}
  {task : Task} {tasks agenda : List Task} {past : List Event} {backend : Backend}

/-- An output has a value, or is going to get one. -/
def Live (t : ScopeTree) (agenda : List Task) (o : CellOutput) : Prop :=
  t.Assigned o.scope o.slot ∨ ∃ v, v ≠ .unset ∧ .write o.scope o.slot v ∈ agenda

/-- The outputs of a cell that have values are those that it exports, except for some that are going
to be cleared. -/
structure Contained (t : ScopeTree) (agenda : List Task) (c : CellId) (cell : Cell) : Prop where
  exported : ∀ {name : String} {o : CellOutput}, cell.outputs[name]? = some o → Live t agenda o →
    .write o.scope o.slot .unset ∈ agenda ∨ cell.Exports name
  /-- During a refresh, nothing is exported. -/
  refreshing : agenda.any (Task.resumes c) = true → ∀ {name : String} {o : CellOutput},
    cell.outputs[name]? = some o → Live t agenda o → .write o.scope o.slot .unset ∈ agenda
  followed : ∀ plan ∈ cell.plan, ∃ stages, plan.After cell.expression stages
  requested : cell.active ≠ none → ∃ plan ∈ cell.plan,
    plan.carried = none ∨ plan.stages.any Stage.isInline = true

/-- The outputs of the cell are contained, or the cell is going to be invalidated. -/
def Contains (w : Workspace) (c : CellId) (agenda : List Task) : Prop :=
  ∀ cell, w.cell? c = some cell →
    (∃ task ∈ agenda, task.Renews c) ∨ Contained w.tree agenda c cell

/-! ### Values that outputs take -/

/-- Tasks that write no value do not make an output live. -/
theorem Live.assigned {t : ScopeTree} (h : Live t (tasks ++ agenda) o) (htasks : Harmless tasks)
    (hunset : ∀ {s id v}, .write s id v ∈ agenda → v = .unset) : t.Assigned o.scope o.slot := by
  rcases h with hassigned | ⟨v, hset, hmem⟩
  · exact hassigned
  · rcases List.mem_append.mp hmem with hmem | hmem
    · exact absurd (htasks _ hmem) hset
    · exact absurd (hunset hmem) hset

/-- What is done elsewhere gives the outputs of a cell no values. -/
theorem assigned_of_affects (happ : w.Apportioned (task :: w.agenda))
    (hconsistent : w.tree.Consistent) (haffects : w.Affects task w')
    (htask : ∀ s id v, task ≠ .write s id v) (hcell : w.cell? c = some cell)
    (hcell' : w'.cell? c = some cell') (hplan : cell'.plan = cell.plan)
    (ho : cell'.outputs[name]? = some o) (hlive : Live w'.tree w'.agenda o) :
    cell.outputs[name]? = some o ∧ w.tree.Assigned o.scope o.slot := by
  have hunset : ∀ {s id v}, .write s id v ∈ w.agenda → v = .unset := happ.unset_of_mem
  have hsame : ∀ {found : Cell}, w.cell? c = some found → found = cell := by
    intro found hfound
    rw [hcell] at hfound
    exact (Option.some.inj hfound).symm
  have hspared : ∀ {v : Workspace}, w.Spares v → v.cell? c = some cell' →
      Live v.tree v.agenda o → cell.outputs[name]? = some o ∧ w.tree.Assigned o.scope o.slot := by
    intro v hspares hfound hlive
    obtain ⟨tasks, hagenda, htasks⟩ := hspares.agenda
    obtain ⟨found, hfound, hname⟩ := hspares.output hfound ho
    rw [hagenda] at hlive
    exact ⟨hsame hfound ▸ hname, hspares.subsides.assigned (hlive.assigned htasks hunset)⟩
  cases haffects with
  | spare hspares => exact hspared hspares hcell' hlive
  | @write _ s id v howner =>
    have hclient : w.Owns (task :: w.agenda) .client s id := howner.resolve_left (htask s id v)
    obtain ⟨hcells, -, htree, tasks, hagenda, htasks⟩ := w.write_same s id v
    have hfound : w.cell? c = some cell' := by
      rw [cell?, ← hcells]
      exact hcell'
    have hname : cell.outputs[name]? = some o := hsame hfound ▸ ho
    have hother : (o.scope, o.slot) ≠ (s, id) := by
      intro heq
      cases heq
      have howns : w.Owns (task :: w.agenda) (.output c name) o.scope o.slot :=
        ⟨cell, hcell, hname⟩
      cases happ.unique hclient howns
    rw [hagenda, htree] at hlive
    refine ⟨hname, ?_⟩
    exact (ScopeTree.assigned_of_write hconsistent (hlive.assigned htasks hunset)).resolve_right
      fun hwritten => hother hwritten.1
  | @complete _ v c' before after name' o' value hspares hbefore hafter hmoved houtput =>
    -- the stage is one of another cell, which writes an output of its own
    have hfound : v.cell? c = some cell' := hcell'
    have hne : c' ≠ c := by
      rintro rfl
      rw [hafter, Option.some.injEq] at hfound
      exact hmoved (by rw [hfound, hplan, hsame hbefore])
    have hother : o ≠ o' := by
      rintro rfl
      obtain ⟨found, hcell, hname⟩ := hspares.output hfound ho
      have howns : w.Owns (task :: w.agenda) (.output c name) o.scope o.slot :=
        ⟨found, hcell, hname⟩
      have howns' : w.Owns (task :: w.agenda) (.output c' name') o.scope o.slot :=
        ⟨before, hbefore, houtput⟩
      cases happ.unique howns howns'
      exact hne rfl
    refine hspared hspares hfound (hlive.imp_right ?_)
    rintro ⟨u, hset, hmem⟩
    refine ⟨u, hset, (List.mem_cons.mp hmem).resolve_left fun heq => hother ?_⟩
    obtain ⟨hscope, hslot, -⟩ := Task.write.inj heq
    exact CellOutput.eq_of_pair (Prod.ext hscope hslot)
  | @promise _ keep tree s id readers more hsubsides _ _ hpromised hmore =>
    refine ⟨hsame hcell' ▸ ho, ?_⟩
    rcases hlive with hassigned | ⟨u, hset, hmem⟩
    · exact hsubsides.assigned hassigned
    · have hkeep : Task.write o.scope o.slot u ≠ keep := by
        rintro rfl
        cases hpromised
      simp only [Workspace.push, List.cons_append, List.mem_cons, List.mem_append, reduceCtorEq,
        false_or] at hmem
      rcases hmem with heq | hmem | hmem
      · exact absurd heq hkeep
      · exact absurd (hmore _ hmem) hset
      · exact absurd (hunset hmem) hset
  | keepDefinition s id name' =>
    have hlive' : Live w.tree ([] ++ w.agenda) o := hlive
    exact ⟨hsame hcell' ▸ ho, hlive'.assigned harmless_nil hunset⟩
  | @keepOutput c' before s name' id hbefore =>
    have hlive' : Live w.tree ([] ++ w.agenda) o := hlive
    have hassigned := hlive'.assigned harmless_nil hunset
    rw [cell?, Workspace.putCell, lookup_insert] at hcell'
    split at hcell'
    · rename_i hc
      subst hc
      cases hcell'
      rw [lookup_insert] at ho
      split at ho
      · -- a definition that is handed over has no value
        cases ho
        refine absurd hassigned (happ.unassigned ?_)
        rw [Owns, List.filterMap_cons_some (rfl : Task.promised? _ = some (s, id))]
        exact List.mem_cons_self
      · exact ⟨hsame hbefore ▸ ho, hassigned⟩
    · exact ⟨hsame hcell' ▸ ho, hassigned⟩

/-- An output is live after a task only if it was before, and is not cleared by the task. -/
theorem live_of_perform (happ : w.Apportioned (task :: w.agenda)) (hconsistent : w.tree.Consistent)
    (hcell : w.cell? c = some cell) (hcell' : (w.perform task).cell? c = some cell')
    (hplan : cell'.plan = cell.plan) (ho : cell'.outputs[name]? = some o)
    (hlive : Live (w.perform task).tree (w.perform task).agenda o) :
    cell.outputs[name]? = some o ∧ Live w.tree (task :: w.agenda) o ∧
      task ≠ .write o.scope o.slot .unset := by
  by_cases hwrite : ∃ s id v, task = .write s id v
  · obtain ⟨s, id, v, rfl⟩ := hwrite
    obtain ⟨hcells, -, htree, tasks, hagenda, htasks⟩ := w.write_same s id v
    have hfound : w.cell? c = some cell' := by
      rw [cell?, ← hcells]
      exact hcell'
    rw [hcell, Option.some.injEq] at hfound
    have hlive' : Live (w.write s id v).tree (w.write s id v).agenda o := hlive
    rw [hagenda, htree] at hlive'
    have hassigned := hlive'.assigned htasks happ.unset_of_mem
    refine ⟨hfound ▸ ho, ?_, fun heq => ?_⟩
    · rcases ScopeTree.assigned_of_write hconsistent hassigned with hold | ⟨heq, hset⟩
      · exact .inl hold
      · cases heq
        exact .inr ⟨v, hset, List.mem_cons_self⟩
    · cases heq
      exact ScopeTree.not_assigned_clear hconsistent _ _ hassigned
  · have htask : ∀ s id v, task ≠ .write s id v := fun s id v heq => hwrite ⟨s, id, v, heq⟩
    obtain ⟨hname, hassigned⟩ := assigned_of_affects happ hconsistent
      (perform_affects hconsistent task) htask hcell hcell' hplan ho hlive
    exact ⟨hname, .inl hassigned, htask _ _ _⟩

/-- Two outputs of a cell have two definitions. -/
theorem Apportioned.name_unique (h : w.Apportioned agenda) (hcell : w.cell? c = some cell)
    {name name' : String} (ho : cell.outputs[name]? = some o)
    (ho' : cell.outputs[name']? = some o) : name = name' := by
  have howns : w.Owns agenda (.output c name) o.scope o.slot := ⟨cell, hcell, ho⟩
  have howns' : w.Owns agenda (.output c name') o.scope o.slot := ⟨cell, hcell, ho'⟩
  exact (Owner.output.inj (h.unique howns howns')).2

/-! ### Turns of a cell -/

namespace Contained

variable {t : ScopeTree}

/-- The cell is at the same point of the same run. -/
theorem of_sameRun {t' : ScopeTree} (h : Contained t (task :: agenda) c cell)
    (hsame : cell'.SameRun cell)
    (hlive : ∀ {name : String} {o : CellOutput}, cell'.outputs[name]? = some o →
      Live t' (tasks ++ agenda) o → cell.outputs[name]? = some o ∧ Live t (task :: agenda) o ∧
        task ≠ .write o.scope o.slot .unset)
    (hresumes : tasks.any (Task.resumes c) = true → task.resumes c = true) :
    Contained t' (tasks ++ agenda) c cell' where
  exported ho hlive' := by
    obtain ⟨hname, hbefore, htask⟩ := hlive ho hlive'
    refine (h.exported hname hbefore).imp (fun hmem => ?_) fun hexports => ?_
    · exact List.mem_append_right _ ((List.mem_cons.mp hmem).resolve_left htask.symm)
    · unfold Cell.Exports at hexports ⊢
      rwa [hsame.plan, hsame.expression, hsame.status]
  refreshing hany _ _ ho hlive' := by
    obtain ⟨hname, hbefore, htask⟩ := hlive ho hlive'
    have hany' : (task :: agenda).any (Task.resumes c) = true := by
      rw [List.any_append, Bool.or_eq_true] at hany
      rw [List.any_cons, Bool.or_eq_true]
      exact hany.imp_left hresumes
    have hmem := h.refreshing hany' hname hbefore
    exact List.mem_append_right _ ((List.mem_cons.mp hmem).resolve_left htask.symm)
  followed := by
    rw [hsame.plan, hsame.expression]
    exact h.followed
  requested := by
    rw [hsame.plan, hsame.active]
    exact h.requested

/-- The cell goes on with its run, or to another one, and no value is written. -/
theorem turn (h : Contained t (task :: agenda) c cell)
    (hunset : ∀ {s id v}, .write s id v ∈ agenda → v = .unset)
    (htask : ∀ s id v, task ≠ .write s id v) (htasks : Harmless tasks)
    (houtputs : cell'.outputs = cell.outputs)
    (hexports : ∀ name, cell.Exports name → cell'.Exports name ∨ task.resumes c = true)
    (hresumes : tasks.any (Task.resumes c) = true →
      task.resumes c = true ∨ ∀ name, ¬cell.Exports name)
    (hfollowed : ∀ plan ∈ cell'.plan, ∃ stages, plan.After cell'.expression stages)
    (hrequested : cell'.active ≠ none → ∃ plan ∈ cell'.plan,
      plan.carried = none ∨ plan.stages.any Stage.isInline = true) :
    Contained t (tasks ++ agenda) c cell' := by
  have hlater : ∀ {o : CellOutput}, .write o.scope o.slot .unset ∈ task :: agenda →
      .write o.scope o.slot .unset ∈ tasks ++ agenda := fun hmem =>
    List.mem_append_right _ ((List.mem_cons.mp hmem).resolve_left (htask _ _ _).symm)
  have hbefore : ∀ {o : CellOutput}, Live t (tasks ++ agenda) o → Live t (task :: agenda) o :=
    fun hlive => .inl (hlive.assigned htasks hunset)
  have hhead : task.resumes c = true → (task :: agenda).any (Task.resumes c) = true := fun hhead =>
    by rw [List.any_cons, hhead, Bool.true_or]
  refine ⟨fun {name o} ho hlive => ?_, fun hany {name o} ho hlive => ?_, hfollowed, hrequested⟩
  · rw [houtputs] at ho
    rcases h.exported ho (hbefore hlive) with hmem | hexported
    · exact .inl (hlater hmem)
    · refine (hexports name hexported).symm.imp_left fun hresuming => ?_
      exact hlater (h.refreshing (hhead hresuming) ho (hbefore hlive))
  · rw [houtputs] at ho
    rw [List.any_append, Bool.or_eq_true] at hany
    rcases hany with hany | hany
    · rcases hresumes hany with hresuming | hnothing
      · exact hlater (h.refreshing (hhead hresuming) ho (hbefore hlive))
      · exact hlater ((h.exported ho (hbefore hlive)).resolve_right (hnothing name))
    · have hany' : (task :: agenda).any (Task.resumes c) = true := by
        rw [List.any_cons, hany, Bool.or_true]
      exact hlater (h.refreshing hany' ho (hbefore hlive))

/-- The value of a stage is recorded, and is written next. -/
theorem complete {plan : Plan} (h : Contained t (task :: agenda) c cell)
    (hunset : ∀ {s id v}, .write s id v ∈ agenda → v = .unset)
    (htask : ∀ s id v, task ≠ .write s id v) (hplan : cell.plan = some plan)
    (hactive : cell.active = none) (hstatus : cell.status = .evaluating)
    (hresumes : agenda.any (Task.resumes c) = false)
    (hunique : ∀ {name name' : String} {o : CellOutput}, cell.outputs[name]? = some o →
      cell.outputs[name']? = some o → name = name')
    (value : Expr) (hmore : Harmless tasks) (hidle : tasks.any (Task.resumes c) = false) :
    Contained t ((cell.complete plan value).1.toList.map
        (fun o => Task.write o.scope o.slot (.defined value)) ++ tasks ++ agenda) c
      (cell.complete plan value).2 := by
  obtain ⟨stages, hafter⟩ := h.followed plan hplan
  have hexports : ∀ {stages name}, plan.After cell.expression stages →
      name ∈ stages.filterMap Stage.target? ++ (plan.complete cell.expression value).1.toList →
      (cell.complete plan value).2.Exports name := by
    intro stages name hafter hname
    obtain ⟨stages', hafter', hnames⟩ := hafter.complete value
    exact .inl ⟨_, stages', rfl, hafter', hnames ▸ hname, hstatus⟩
  refine ⟨fun {name o} ho hlive => ?_, fun hany => ?_, fun plan' hplan' => ?_, fun hsome => ?_⟩
  · have ho' : cell.outputs[name]? = some o := ho
    rcases hlive with hassigned | ⟨v, hset, hmem⟩
    · rcases h.exported ho' (.inl hassigned) with hmem | hexported
      · refine .inl (List.mem_append_right _ ?_)
        exact (List.mem_cons.mp hmem).resolve_left (htask _ _ _).symm
      · rcases hexported with ⟨plan', stages', hplan', hafter', hname, -⟩ | ⟨hnone, -⟩
        · rw [hplan, Option.some.injEq] at hplan'
          subst hplan'
          exact .inr (hexports hafter' (List.mem_append_left _ hname))
        · rw [hplan] at hnone
          cases hnone
    · rw [List.append_assoc, List.mem_append, List.mem_append] at hmem
      rcases hmem with hmem | hmem | hmem
      · -- the output is the one that the stage assigns
        obtain ⟨o', ho', heq⟩ := List.mem_map.mp hmem
        obtain ⟨hscope, hslot, -⟩ := Task.write.inj heq
        cases CellOutput.eq_of_pair (Prod.ext hscope hslot)
        have hbind : (plan.complete cell.expression value).1.bind (cell.outputs[·]?) = some o :=
          Option.mem_toList.mp ho'
        obtain ⟨target, htarget, hname⟩ := Option.bind_eq_some_iff.mp hbind
        cases hunique ho hname
        refine .inr (hexports hafter (List.mem_append_right _ ?_))
        exact Option.mem_toList.mpr htarget
      · exact absurd (hmore _ hmem) hset
      · exact absurd (hunset hmem) hset
  · rw [List.any_append, List.any_append, hidle, hresumes, Bool.or_false, Bool.or_false,
      List.any_map, List.any_eq_true] at hany
    obtain ⟨o, -, hresuming⟩ := hany
    cases hresuming
  · cases hplan'
    obtain ⟨stages', hafter', -⟩ := hafter.complete value
    exact ⟨stages', hafter'⟩
  · exact absurd hactive hsome

/-- A cell without outputs exports nothing. -/
theorem of_outputs_eq_empty {t : ScopeTree} (houtputs : cell.outputs = {})
    (hplan : cell.plan = none) (hactive : cell.active = none) : Contained t agenda c cell where
  exported ho := by simp [houtputs] at ho
  refreshing _ _ _ ho := by simp [houtputs] at ho
  followed := by simp [hplan]
  requested hsome := absurd hactive hsome

end Contained

namespace Contains

theorem of_renewal (htask : task ∈ agenda) (hrenews : task.Renews c) : w.Contains c agenda :=
  fun _ _ => .inl ⟨task, htask, hrenews⟩

theorem putCell (tasks : List Task) (h : Contained w.tree (tasks ++ w.agenda) c cell) :
    ((w.putCell c cell).push tasks).Contains c (tasks ++ w.agenda) := by
  intro found hfound
  have hlookup : (w.putCell c cell).cell? c = some found := hfound
  rw [cell?_putCell, Option.some.injEq] at hlookup
  exact .inr (hlookup ▸ h)

/-- The cell is invalidated, or is going to be. -/
theorem perform_of_renews (htask : task.Renews c) :
    (w.perform task).Contains c (w.perform task).agenda := by
  cases hcell : w.cell? c with
  | none =>
    rcases htask with rfl | rfl | ⟨outer, rfl⟩
    all_goals
      rw [perform_cell_of_none hcell]
      intro cell hfound
      rw [hcell] at hfound
      cases hfound
  | some cell =>
    rcases htask with rfl | rfl | ⟨outer, rfl⟩
    all_goals rw [perform_cell hcell]
    · exact of_renewal List.mem_cons_self (.inr (.inl rfl))
    · -- all outputs are going to be cleared
      have hcleared : ∀ {name : String} {o : CellOutput}, cell.outputs[name]? = some o →
          .write o.scope o.slot .unset ∈ cancelTasks cell.active ++
            cell.outputs.values.map (fun o => Task.write o.scope o.slot .unset) ++ w.agenda := by
        intro name o ho
        refine List.mem_append_left _ (List.mem_append_right _ (List.mem_map.mpr ⟨o, ?_, rfl⟩))
        exact (mem_values_iff_lookup _ _).mpr ⟨name, ho⟩
      exact putCell _ ⟨fun ho _ => .inl (hcleared ho), fun _ _ _ ho _ => hcleared ho,
        by simp [Cell.invalidated], by simp [Cell.invalidated]⟩
    · exact of_renewal (List.mem_append_left _ List.mem_cons_self) (.inl rfl)

theorem advance {generation : Nat}
    (happ : w.Apportioned (.cell c (.advance generation) :: w.agenda))
    (horderly : Orderly c (.cell c (.advance generation) :: w.agenda) cell)
    (h : Contained w.tree (.cell c (.advance generation) :: w.agenda) c cell)
    (hcell : w.cell? c = some cell) :
    (w.advance c cell generation).Contains c (w.advance c cell generation).agenda := by
  have hunset : ∀ {s id v}, .write s id v ∈ w.agenda → v = .unset := happ.unset_of_mem
  have hkept : w.Contains c w.agenda := by
    intro found hfound
    rw [hcell, Option.some.injEq] at hfound
    subst hfound
    exact .inr (h.turn hunset (by simp) harmless_nil rfl (fun _ => .inl) (by simp) h.followed
      h.requested)
  unfold Workspace.advance
  split
  · exact hkept
  rename_i hgeneration
  rw [not_not] at hgeneration
  subst hgeneration
  obtain ⟨hvacant, hactive⟩ := horderly.vacant_of_advance
  split
  · exact hkept
  rename_i plan hplan
  split
  · refine putCell [] (h.turn hunset (by simp) harmless_nil rfl (fun name _ => ?_) (by simp)
      (by simp) ?_)
    · exact .inl (.inr ⟨rfl, .inl rfl⟩)
    · exact fun hsome => absurd hactive hsome
  · rename_i expression hnext
    have hoperate : Harmless ((w.backend.onDispatch w.nextCommand
        ⟨c, w.definedInputs cell, expression⟩).map .operate) := by simp [Task.Harmless]
    refine putCell (w := w) _ (h.turn hunset (by simp) hoperate rfl (fun name hexports => ?_) ?_
      h.followed fun _ => ⟨plan, hplan, Plan.request_cases hnext⟩)
    · rcases hexports with ⟨plan', stages, hplan', hafter, hname, -⟩ | ⟨hnone, -⟩
      · exact .inl (.inl ⟨plan', stages, hplan', hafter, hname, rfl⟩)
      · rw [hplan] at hnone
        cases hnone
    · simp [Task.resumes]
  · rename_i target value hnext
    have hstatus : cell.status = .evaluating := by
      refine (horderly.advancing List.mem_cons_self).resolve_right fun hfirst => ?_
      exact plan.next_ne_assign (hfirst.2 plan hplan) hnext
    refine putCell _ (h.complete hunset (by simp) hplan hactive hstatus hvacant.resumes ?_ value
      ?_ ?_)
    · exact happ.name_unique hcell
    · simp [Task.Harmless]
    · simp [Task.resumes]

/-- The active command is answered: the run goes on, or the cell has failed. -/
theorem receive {op : Op} {id : CommandId} (happ : w.Apportioned (.operate op :: w.agenda))
    (horderly : Orderly c (.operate op :: w.agenda) cell)
    (h : Contained w.tree (.operate op :: w.agenda) c cell) (hcell : w.cell? c = some cell)
    (hactive : cell.active = some id) (outcome : Outcome) :
    (w.receive id c outcome).Contains c (w.receive id c outcome).agenda := by
  have hunset : ∀ {s id v}, .write s id v ∈ w.agenda → v = .unset := happ.unset_of_mem
  have hsome : cell.active ≠ none := by
    rw [hactive]
    exact Option.some_ne_none id
  have hvacant := horderly.vacant_of_active rfl hsome
  obtain ⟨plan, hplan, hrequest⟩ := h.requested hsome
  unfold Workspace.receive
  rw [hcell]
  simp only [hactive, ne_eq, not_true_eq_false, if_false]
  cases outcome with
  | error e =>
    refine putCell [] (h.turn hunset (by simp) harmless_nil rfl (fun name hexports => ?_)
      (by simp) (by simp) ?_)
    · -- what was assigned before the command was sent
      rcases hexports with ⟨plan', stages, hplan', hafter, hname, -⟩ | ⟨hnone, -⟩
      · rw [hplan', Option.mem_some] at hplan
        subst hplan
        refine .inl (.inr ⟨rfl, .inr ⟨rfl, ?_⟩⟩)
        show name ∈ cell.expression.innerTargets
        rw [Expr.innerTargets, hafter.all]
        rcases hrequest with hcarried | hinline
        · rw [hafter.carried hcarried] at hname
          simp at hname
        · exact Plan.mem_innerTargets hinline hname
      · rw [hnone] at hplan
        cases hplan
    · exact fun hsome => absurd rfl hsome
  | ok value =>
    have hanswered : Contained w.tree (.operate op :: w.agenda) c { cell with active := none } :=
      ⟨h.exported, h.refreshing, h.followed, fun hsome => absurd rfl hsome⟩
    simp only [Option.mem_def] at hplan
    simp only [hplan]
    refine putCell _ (hanswered.complete hunset (by simp) hplan rfl (horderly.active hsome)
      hvacant.resumes ?_ value ?_ ?_)
    · exact happ.name_unique hcell
    · simp [Task.Harmless]
    · simp [Task.resumes]

/-- One task keeps the outputs of the cell contained. -/
theorem perform (h : w.Contains c (task :: w.agenda)) (happ : w.Apportioned (task :: w.agenda))
    (hconsistent : w.tree.Consistent) (hsettled : w.Settled c (task :: w.agenda)) :
    (w.perform task).Contains c (w.perform task).agenda := by
  by_cases hmakes : w.Makes c task
  · obtain ⟨rfl, position, expression, scope, automatic, rfl⟩ := hmakes
    obtain ⟨-, -, -, cell, tasks, hcell, hactive, hplan, houtputs, -⟩ :=
      w.operate_newCell position expression scope automatic
    intro found hfound
    have heq : found = cell := Option.some.inj (hfound.symm.trans hcell)
    exact .inr (heq ▸ .of_outputs_eq_empty houtputs hplan hactive)
  by_cases hrenews : task.Renews c
  · exact perform_of_renews hrenews
  by_cases hpending : ∃ renewal ∈ w.agenda, renewal.Renews c
  · obtain ⟨renewal, hmem, hrenewal⟩ := hpending
    obtain ⟨tasks, hagenda⟩ := (perform_affects hconsistent task).agenda
    exact of_renewal (hagenda ▸ List.mem_append_right _ hmem) hrenewal
  have hunset : ∀ {s id v}, .write s id v ∈ w.agenda → v = .unset := happ.unset_of_mem
  have hcontained : ∀ {cell}, w.cell? c = some cell →
      Contained w.tree (task :: w.agenda) c cell := by
    intro cell hcell
    refine (h cell hcell).resolve_left ?_
    rintro ⟨renewal, hmem, hrenewal⟩
    rcases List.mem_cons.mp hmem with rfl | hmem
    · exact hrenews hrenewal
    · exact hpending ⟨renewal, hmem, hrenewal⟩
  have hturn := perform_turn hmakes
  generalize hperform : w.perform task = w' at hturn ⊢
  cases hturn with
  | leave hidle hleaves =>
    intro cell' hcell'
    obtain ⟨cell, hcell, hsame⟩ := hleaves.cell hcell'
    obtain ⟨tasks, hagenda, htasks⟩ := hleaves.agenda
    subst hperform
    rw [hagenda]
    refine .inr ((hcontained hcell).of_sameRun hsame (fun ho hlive => ?_) fun hany => ?_)
    · exact live_of_perform happ hconsistent hcell hcell' hsame.plan ho (hagenda ▸ hlive)
    · rw [htasks.any_resumes] at hany
      cases hany
  | renew hcell hidle hnext hmore => exact of_renewal List.mem_cons_self (.inr (.inl rfl))
  | invalidate hcell => exact absurd (.inr (.inl rfl)) hrenews
  | @reconsider cell hcell =>
    intro found hfound
    have hfound' := hcontained hfound
    refine .inr (hfound'.turn hunset (by simp) ?_ rfl (fun _ => .inl) ?_ hfound'.followed
      hfound'.requested)
    · simp [Task.Harmless]
    · exact fun _ => .inl (by simp [Task.resumes])
  | @rest cell hcell =>
    have hbefore := hcontained hcell
    have hresumes : (Task.cell c .reconsider).resumes c = true := by simp [Task.resumes]
    exact putCell [] (hbefore.turn hunset (by simp) harmless_nil rfl (fun _ _ => .inr hresumes)
      (by simp)
      hbefore.followed hbefore.requested)
  | @evaluate cell hcell =>
    have hresumes : (Task.cell c .evaluate).resumes c = true := by simp [Task.resumes]
    obtain ⟨-, hactive, -⟩ := cell.begin_run fun i => (w.inputValue i).isUnset
    refine putCell _ ((hcontained hcell).turn hunset (by simp) ?_ ?_ (fun _ _ => .inr hresumes)
      (fun _ => .inl hresumes) (fun plan hplan => ⟨[], Cell.begin_after hplan⟩) fun hsome => ?_)
    · simp [Task.Harmless]
    · exact (cell.begin_same _).2
    · rw [hactive] at hsome
      exact absurd ((hsettled.inOrder cell hcell).active_of_resumes hresumes) hsome
  | advance hcell => exact advance happ (hsettled.inOrder _ hcell) (hcontained hcell) hcell
  | @answer op id cell outcome hcell hactive hanswers =>
    have hcancelled : ({ w with commands := w.commands.cancel id } : Workspace).Apportioned
        (.operate op :: w.agenda) :=
      ⟨happ.unique, happ.once, happ.unassigned, happ.written, happ.first⟩
    exact receive hcancelled (hsettled.inOrder _ hcell) (hcontained hcell) hcell hactive outcome
  | unregister hcell hmore => exact putCell _ (.of_outputs_eq_empty rfl rfl rfl)
  | edit hcell =>
    refine of_renewal (List.mem_append_left _ (List.mem_cons_of_mem _ List.mem_cons_self)) ?_
    exact .inr (.inr ⟨_, rfl⟩)
  | @awake cell hcell hstale =>
    have hbefore := hcontained hcell
    -- a stale cell exports nothing
    have hnothing : ∀ name, ¬cell.Exports name := by
      simp [Cell.Exports, hstale]
    exact putCell _ (hbefore.turn hunset (by simp) (by simp [Task.Harmless]) rfl
      (fun name hexports => absurd hexports (hnothing name)) (fun _ => .inr hnothing)
      hbefore.followed hbefore.requested)

end Contains

/-! ### Runs -/

theorem Contained.subsides {t t' : ScopeTree} (h : Contained t agenda c cell)
    (ht : t.Subsides t') : Contained t' agenda c cell :=
  { h with
    exported := fun ho hlive => h.exported ho (hlive.imp_left ht.assigned)
    refreshing := fun hany _ _ ho hlive => h.refreshing hany ho (hlive.imp_left ht.assigned) }

theorem Contains.sweep (h : w.Contains c w.agenda) (hconsistent : w.tree.Consistent) :
    w.sweep.Contains c w.sweep.agenda := by
  have hsubsides := (spares_sweep hconsistent).subsides
  obtain ⟨cells, tree, heq, hcells⟩ := w.exists_sweep_eq
  rw [heq] at hsubsides ⊢
  exact fun cell hcell => (h cell (hcells hcell)).imp_right fun hbefore =>
    hbefore.subsides hsubsides

theorem Contains.call (h : w.Contains c w.agenda) (hquiet : w.agenda = []) (op : Op) :
    (w.call op).Contains c (w.call op).agenda := by
  rw [hquiet] at h
  intro cell hcell
  have hbefore : Contained w.tree [] c cell := (h cell hcell).resolve_left (by simp)
  have hlive : ∀ {o}, Live w.tree [.operate op] o → Live w.tree [] o := by
    simp [Live]
  refine .inr ⟨fun ho hlive' => ?_, ?_, hbefore.followed, hbefore.requested⟩
  · exact .inr ((hbefore.exported ho (hlive hlive')).resolve_left List.not_mem_nil)
  · simp [Workspace.call, Task.resumes]

/-- As long as no cell begins a run during a refresh of it, the outputs of every cell are
contained. -/
theorem Run.contains (h : Run (fun w => w.reenters = false) { backend } past w) (c : CellId) :
    w.Contains c w.agenda := by
  induction h with
  | refl =>
    intro cell hcell
    simp [cell?] at hcell
  | call op _ hquiet ih => exact ih.call hquiet op
  | @step past w hrun hreenters ih =>
    cases hagenda : w.agenda with
    | nil =>
      rw [Workspace.step, hagenda]
      exact ih
    | cons task rest =>
      rw [step_of_agenda hagenda]
      have hready := hrun.ready
      have happ := hrun.apportioned
      rw [hagenda] at ih happ
      have hpopped : ({ w with agenda := rest } : Workspace).Contains c (task :: rest) := ih
      have happ' : ({ w with agenda := rest } : Workspace).Apportioned (task :: rest) :=
        ⟨happ.unique, happ.once, happ.unassigned, happ.written, happ.first⟩
      have hperformed := hpopped.perform happ' hready.tied.allConsistent
        ((hrun.settled c).pop hagenda)
      exact hperformed.sweep (hready.perform hagenda).tied.allConsistent

/-- A cell that has failed exports only names that are assigned inside an inline evaluation, as long
as no cell begins a run during a refresh of it: any other output of it is unset, and so is what the
readers bound to it observe, unless a task is still going to clear it. -/
theorem Run.unset_of_failed (h : Run (fun w => w.reenters = false) { backend } past w)
    (hcell : w.cell? c = some cell) (hfailed : cell.status = .failed)
    (ho : cell.outputs[name]? = some o) (hname : name ∉ cell.expression.innerTargets)
    (hclears : ∀ task ∈ w.agenda, ¬task.Clears c o) :
    w.outputValue o = .unset ∧ ∀ scope reader, w.tree.get? o.scope = some scope →
      scope.bindings.binding? reader = some o.slot →
        w.tree.readerValue o.scope reader = .unset := by
  have hcontained : Contained w.tree w.agenda c cell := by
    refine (h.contains c cell hcell).resolve_left ?_
    rintro ⟨task, hmem, hrenews⟩
    exact hclears task hmem (.inr hrenews)
  have hassigned : ¬w.tree.Assigned o.scope o.slot := by
    intro hassigned
    rcases hcontained.exported ho (.inl hassigned) with hmem | hexports
    · exact hclears _ hmem (.inl rfl)
    · rcases hexports with ⟨-, -, -, -, -, hstatus⟩ | ⟨-, hstatus | ⟨-, hinner⟩⟩
      · rw [hfailed] at hstatus
        cases hstatus
      · rw [hfailed] at hstatus
        cases hstatus
      · exact hname hinner
  have howns : w.Owns w.agenda (.output c name) o.scope o.slot := ⟨cell, hcell, ho⟩
  have hunset : w.outputValue o = .unset :=
    ScopeTree.value_of_not_assigned (h.ready.lent_of_owns howns) hassigned
  refine ⟨hunset, fun scope reader hscope hbound => ?_⟩
  rw [← hunset, outputValue, ScopeTree.readerValue_eq_value hscope hbound]

/-- The value of `1 + 1` is assigned to `y`, and then the equation around it fails. The result of
the equation would be assigned to `z`, which stays unset. -/
theorem unset_of_failed_equation :
    let one : Expr := .number ⟨0x3ff0000000000000⟩
    let two : Expr := .number ⟨0x4000000000000000⟩
    let assignment : Expr := .app "Assign" [.symbol "y", .app "Add" [one, one]]
    let equation : Expr := .app "Equal" [assignment, .missing]
    let made := (({ backend := .recording } : Workspace).call
      (.newCell .origin (.app "Assign" [.symbol "z", equation]) (some 0) true)).settle 19
    let assigned := (made.call (.answer (some 0) (.outcome (.ok two)))).settle 7
    let failed := (assigned.call (.answer (some 1) (.outcome (.error (.failed "boo"))))).settle 1
    ∃ cell o, failed.cell? 0 = some cell ∧ cell.status = .failed ∧ cell.outputs["z"]? = some o ∧
      failed.outputValue o = .unset := by
  intro one two assignment equation made assigned failed
  have hmade : Run (fun w => w.reenters = false) { backend := .recording } [] made :=
    (Run.refl.call _ rfl).settle (by decide +kernel)
  have hassigned : Run (fun w => w.reenters = false) { backend := .recording }
      ([] ++ made.history) assigned := by
    have hsteps : ∀ n < 7, ((made.call (.answer (some 0) (.outcome (.ok two)))).settle n).reenters
        = false := by decide +kernel
    exact (hmade.call _ (by decide +kernel)).settle hsteps
  have hrun : Run (fun w => w.reenters = false) { backend := .recording }
      ([] ++ made.history ++ assigned.history) failed :=
    (hassigned.call _ (by decide +kernel)).settle (by decide +kernel)
  have hquiet : failed.agenda = [] := by decide +kernel
  obtain ⟨cell, hcell, hfailed, hname⟩ : ∃ cell, failed.cell? 0 = some cell ∧
      cell.status = .failed ∧ "z" ∉ cell.expression.innerTargets := by
    have hfound : (failed.cell? 0).any (fun cell => decide (cell.status = .failed ∧
        "z" ∉ cell.expression.innerTargets)) = true := by decide +kernel
    obtain ⟨cell, hcell, hfound⟩ := (Option.any_eq_true _ _).mp hfound
    exact ⟨cell, hcell, of_decide_eq_true hfound⟩
  obtain ⟨o, ho⟩ : ∃ o, cell.outputs["z"]? = some o := by
    have hfound : ((failed.cell? 0).bind (·.outputs["z"]?)).isSome = true := by decide +kernel
    rw [hcell] at hfound
    exact Option.isSome_iff_exists.mp hfound
  clear_value made assigned failed
  refine ⟨cell, o, hcell, hfailed, ho, (hrun.unset_of_failed hcell hfailed ho hname ?_).1⟩
  simp [hquiet]

/-- The value of `1 + 1` is assigned to `y`, and then the equation around it fails: the cell has
failed, and what it assigned can still be read. -/
theorem failed_exports_inner :
    let one : Expr := .number ⟨0x3ff0000000000000⟩
    let two : Expr := .number ⟨0x4000000000000000⟩
    let assignment : Expr := .app "Assign" [.symbol "y", .app "Add" [one, one]]
    let equation : Expr := .app "Equal" [assignment, .missing]
    let w := ((((({ backend := .recording } : Workspace).apply
      (.newCell .origin equation (some 0) true)).2.apply
      (.addReader 0 "y" ⟨.zero false, ⟨0x4022000000000000⟩⟩)).2.apply
      (.answer (some 0) (.outcome (.ok two)))).2.apply
      (.answer (some 1) (.outcome (.error (.failed "boo"))))).2
    w.agenda = [] ∧ (w.cell? 0).map (·.status) = some .failed ∧
      ((w.cell? 0).bind (·.outputs["y"]?)).map w.outputValue = some (.defined two) ∧
      (w.readers[0]?).map (fun r => w.tree.readerValue r.scope r.reader) = some (.defined two) := by
  decide +kernel

end Workspace

end MathCanvas
