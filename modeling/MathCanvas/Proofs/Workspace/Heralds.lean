import MathCanvas.Proofs.Workspace.Writers

/-!
# What heralds a new run

When a cell is invalidated its plan is dropped and its definitions are cleared, and afterwards it is
evaluated or becomes stale. Between the two, the client may be told and write, and the cell may even
evaluate meanwhile; but each of these tasks stands before one that begins the cell anew
(`Workspace.Heralded`). So while no such task is on the agenda, nothing is going to withdraw what the
cell has come to.
-/

namespace MathCanvas

theorem Idle.invalidate_not_mem {c : CellId} {tasks : List Task} (h : Idle c tasks) :
    .cell c .invalidate ∉ tasks := fun hmem => by
  simpa [Task.drives, CellTask.drives] using h _ hmem

namespace Workspace

variable {w w' : Workspace} {f : Inputs → Expr → Outcome} {c : CellId} {cell cell' : Cell}
  {task : Task} {tasks agenda rest front mid : List Task} {name : String} {o : CellOutput}

/-- An output of a cell comes from before, or is handed over. -/
theorem WellKept.output_of_step (h : w.WellKept) (hagenda : w.agenda = task :: rest)
    (hcell' : w.step.cell? c = some cell') (ho : cell'.outputs[name]? = some o) :
    (∃ cell, w.cell? c = some cell ∧ cell.outputs[name]? = some o) ∨
      task = .cell c (.keepOutput o.scope name o.slot) := by
  rw [step_of_agenda hagenda] at hcell'
  have hperformed := (swept_sweep (h.ready.perform hagenda).tied).cell hcell'
  have haffects := perform_affects (w := { w with agenda := rest }) h.ready.tied.allConsistent task
  generalize ({ w with agenda := rest } : Workspace).perform task = w' at hperformed haffects
  cases haffects with
  | spare hspares | complete _ hspares => exact .inl (hspares.output hperformed ho)
  | write v =>
    rw [cell?, (({ w with agenda := rest } : Workspace).write_same _ _ v).1] at hperformed
    exact .inl ⟨cell', hperformed, ho⟩
  | promise | keepDefinition => exact .inl ⟨cell', hperformed, ho⟩
  | @keepOutput c' before s n x hbefore =>
    rw [cell?, putCell, lookup_insert] at hperformed
    split at hperformed
    · rename_i hc
      subst hc
      cases hperformed
      rw [lookup_insert] at ho
      split at ho
      · rename_i hn
        subst hn
        cases ho
        exact .inr rfl
      · exact .inl ⟨before, hbefore, ho⟩
    · exact .inl ⟨cell', hperformed, ho⟩

/-- A cell is going to be invalidated only in order to begin anew. -/
theorem reopens_of_invalidate (htasks : (w.perform task).agenda = tasks ++ w.agenda)
    (hsplit : tasks = front ++ .cell c .invalidate :: mid) : ∃ next ∈ mid, next.Reopens c := by
  have hmem : .cell c .invalidate ∈ tasks := by simp [hsplit]
  have hnone : ∀ {more : List Task}, (w.perform task).agenda = more ++ w.agenda →
      .cell c .invalidate ∉ more → ∃ next ∈ mid, next.Reopens c := by
    intro more hmore hnot
    obtain rfl : tasks = more := List.append_cancel_right (htasks.symm.trans hmore)
    exact absurd hmem hnot
  by_cases hmakes : w.Makes c task
  · obtain ⟨rfl, position, expression, scope, automatic, rfl⟩ := hmakes
    obtain ⟨-, -, -, cell, more, -, -, -, -, hmore, hidle⟩ :=
      w.operate_newCell position expression scope automatic
    exact hnone hmore hidle.invalidate_not_mem
  have hturn := perform_turn hmakes
  generalize w.perform task = w' at htasks hnone hturn
  cases hturn with
  | leave _ hleaves =>
    obtain ⟨more, hmore, hidle⟩ := hleaves.agenda
    exact hnone hmore hidle.invalidate_not_mem
  | @renew _ _ next more _ _ hnext hidle =>
    obtain rfl : tasks = .cell c .invalidate :: .cell c next :: more :=
      List.append_cancel_right htasks.symm
    have hlater : .cell c .invalidate ∉ Task.cell c next :: more := by
      rintro (_ | ⟨_, hin⟩)
      · rcases hnext with heq | heq <;> cases heq
      · exact hidle.invalidate_not_mem hin
    obtain rfl : mid = .cell c next :: more := by
      cases front with
      | nil => exact (List.cons.inj hsplit).2.symm
      | cons first front =>
        rw [(List.cons.inj hsplit).2] at hlater
        simp at hlater
    refine ⟨.cell c next, List.mem_cons_self, .inl ?_⟩
    rcases hnext with rfl | rfl <;> simp [Task.resumes]
  | invalidate => exact hnone rfl (by simp [cancelTasks])
  | reconsider => exact hnone rfl (by simp)
  | rest => exact hnone (List.nil_append _).symm (by simp)
  | evaluate => exact hnone rfl (by simp)
  | @advance cell generation hcell =>
    unfold Workspace.advance at hnone
    split at hnone
    · exact hnone (List.nil_append _).symm (by simp)
    split at hnone
    · exact hnone (List.nil_append _).symm (by simp)
    split at hnone
    · exact hnone (List.nil_append _).symm (by simp)
    · exact hnone rfl (by simp)
    · exact hnone rfl (by simp)
  | @answer _ id cell outcome hcell hactive =>
    have hfound : ({ w with commands := w.commands.cancel id } : Workspace).cell? c = some cell :=
      hcell
    unfold receive at hnone
    simp only [hfound, hactive, ne_eq, not_true_eq_false, if_false] at hnone
    split at hnone
    · exact hnone (List.nil_append _).symm (by simp)
    split at hnone
    · exact hnone (List.nil_append _).symm (by simp)
    · exact hnone rfl (by simp)
  | unregister _ hidle =>
    refine hnone rfl fun hin => ?_
    rcases List.mem_append.mp hin with hin | hin
    · exact (idle_cancelTasks _).invalidate_not_mem hin
    · exact hidle.invalidate_not_mem hin
  | edit =>
    refine hnone (List.append_assoc _ _ _).symm ?_
    simp
  | awake => exact hnone rfl (by simp)

/-- Whether a task withdraws what a cell has come to. -/
def Withdraws (w : Workspace) (c : CellId) (task : Task) : Prop :=
  task = .cell c .invalidate ∨ ∃ (cell : Cell) (name : String) (o : CellOutput),
    w.cell? c = some cell ∧ cell.outputs[name]? = some o ∧ task = .write o.scope o.slot .unset

/-- Whatever withdraws what a cell has come to, it stands before a task that begins the cell anew. -/
def Heralded (w : Workspace) (c : CellId) (agenda : List Task) : Prop :=
  ∀ task later, task :: later <:+ agenda → w.Withdraws c task → ∃ next ∈ later, next.Reopens c

namespace Heralded

theorem call (w : Workspace) (c : CellId) (op : Op) : (w.call op).Heralded c (w.call op).agenda := by
  intro task later hsuffix hwithdraws
  obtain rfl : task = .operate op := List.mem_singleton.mp (hsuffix.subset List.mem_cons_self)
  rcases hwithdraws with heq | ⟨cell, name, o, -, -, heq⟩ <;> cases heq

/-- Every step leaves the withdrawals before the tasks that begin the cell anew. -/
theorem step (h : w.Heralded c w.agenda) (hw : w.Writing f) (hagenda : w.agenda = task :: rest) :
    w.step.Heralded c w.step.agenda := by
  intro found later hsuffix hwithdraws
  obtain ⟨-, tasks, htasks, hwrites⟩ := hw.kept.exists_tasks hagenda
  obtain ⟨pre, hpre⟩ := hsuffix
  rw [step_of_agenda hagenda, sweep_agenda, htasks] at hpre
  have hbefore : ∀ {cell' : Cell} {name : String} {o : CellOutput}, w.step.cell? c = some cell' →
      cell'.outputs[name]? = some o → .write o.scope o.slot .unset ∈ tasks ++ rest →
      ∃ cell, w.cell? c = some cell ∧ cell.outputs[name]? = some o := by
    intro cell' name o hcell' ho hmem
    refine (hw.kept.output_of_step hagenda hcell' ho).resolve_right ?_
    rintro rfl
    rcases List.mem_append.mp hmem with hnew | hold
    · obtain ⟨c', cell, n, -, -, -, hcleared⟩ := hwrites _ _ _ hnew
      cases hcleared rfl
    · exact hw.unwritten c o.scope name o.slot .unset (hagenda ▸ List.mem_cons_self)
        (hagenda ▸ List.mem_cons_of_mem _ hold)
  have hold : ∀ {mid}, rest = mid ++ found :: later → ∃ next ∈ later, next.Reopens c := by
    intro mid hmid
    have hsuffix : found :: later <:+ w.agenda := ⟨task :: mid, by rw [hagenda, hmid]; rfl⟩
    refine h found later hsuffix (hwithdraws.imp_right ?_)
    rintro ⟨cell', name, o, hcell', ho, rfl⟩
    obtain ⟨cell, hcell, ho⟩ := hbefore hcell' ho (by simp [hmid])
    exact ⟨cell, name, o, hcell, ho, rfl⟩
  rcases List.append_eq_append_iff.mp hpre.symm with ⟨mid, -, hmid⟩ | ⟨mid, hfront, hmid⟩
  · exact hold hmid
  cases mid with
  | nil => exact hold (hmid.symm.trans (List.nil_append _).symm)
  | cons first mid =>
    obtain ⟨rfl, rfl⟩ := List.cons.inj hmid
    rcases hwithdraws with rfl | ⟨cell', name, o, hcell', ho, rfl⟩
    · obtain ⟨next, hnext, hreopens⟩ :=
        reopens_of_invalidate (w := { w with agenda := rest }) htasks hfront
      exact ⟨next, List.mem_append_left _ hnext, hreopens⟩
    · have hmem : .write o.scope o.slot .unset ∈ tasks := by simp [hfront]
      obtain ⟨cell, hcell, ho⟩ := hbefore hcell' ho (List.mem_append_left _ hmem)
      obtain ⟨c', before, n, hbefore', ho', -, hcleared⟩ := hwrites _ _ _ hmem
      have has : cell.Has name o.scope o.slot .definition := ho
      obtain rfl : c = c' := hw.kept.posted.owner_eq hw.kept.apportioned hcell hbefore' has ho'
      obtain ⟨next, hnext, hreopens⟩ := h task rest (hagenda ▸ List.suffix_rfl) (.inl (hcleared rfl))
      exact ⟨next, List.mem_append_right _ hnext, hreopens⟩

/-- While no task is going to begin the cell anew, what it has is going to be written only if that is
what is done next. -/
theorem not_write_mem (h : w.Heralded c w.agenda) (hw : w.Writing f)
    (hagenda : w.agenda = task :: rest) (hnone : ∀ next ∈ rest, ¬next.Reopens c)
    (hcell : w.cell? c = some cell) (ho : cell.outputs[name]? = some o) (v : SlotValue) :
    .write o.scope o.slot v ∉ rest := by
  intro hmem
  obtain rfl : v = .unset := hw.kept.apportioned.first (by rwa [hagenda])
  obtain ⟨pre, later, hsplit⟩ := List.append_of_mem hmem
  have hsuffix : .write o.scope o.slot .unset :: later <:+ w.agenda :=
    ⟨task :: pre, by rw [hagenda, hsplit]; rfl⟩
  obtain ⟨next, hnext, hreopens⟩ := h _ _ hsuffix (.inr ⟨cell, name, o, hcell, ho, rfl⟩)
  exact hnone next (by simp [hsplit, hnext]) hreopens

/-- While no task is going to begin the cell anew, nothing is withdrawn. -/
theorem not_withdraws (h : w.Heralded c w.agenda) (hagenda : w.agenda = task :: rest)
    (hnone : ∀ next ∈ rest, ¬next.Reopens c) : ¬w.Withdraws c task := by
  intro hwithdraws
  obtain ⟨next, hnext, hreopens⟩ := h task rest (hagenda ▸ List.suffix_rfl) hwithdraws
  exact hnone next hnext hreopens

end Heralded

end Workspace

end MathCanvas
