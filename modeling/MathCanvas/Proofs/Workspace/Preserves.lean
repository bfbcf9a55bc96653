import MathCanvas.Proofs.Workspace.Lifecycle

/-!
# Cells keep their expressions

In a chronicle the command that is out when a cell gets another expression is answered by nobody
before it is cancelled. So every cell keeps its expression, up to results, until the client gives it
another one (`Workspace.Chronicle.blanked_perform`).
-/

namespace MathCanvas

namespace Workspace

variable {w : Workspace} {c : CellId} {cell cell' : Cell} {e : Expr} {agenda rest : List Task}
  {task : Task} {id : CommandId} {backend : Backend} {may : Workspace → Op → Prop}
  {deeds : List Deed}

/-- The cell keeps its expression, up to results, and nobody is going to answer the command that could
change that. -/
def Preserves (w : Workspace) (c : CellId) (e : Expr) (agenda : List Task) : Prop :=
  ∃ out, w.Keeps c e out agenda ∧
    ∀ id, out = some id → id < w.nextCommand ∧ agenda.any (Task.replies id) = false

/-- A cell without a plan that is not followed can have no expression but its own. -/
theorem Preserves.of_fitting (hnext : c < w.nextCell)
    (hcell : ∀ cell, w.cell? c = some cell → cell.expression.blanked = e.blanked ∧ cell.Fitting) :
    w.Preserves c e agenda :=
  ⟨none, ⟨hnext, fun hfound => .of_fitting (hcell _ hfound).1 (hcell _ hfound).2⟩, fun _ => by rintro ⟨⟩⟩

theorem Preserves.blanked (h : w.Preserves c e agenda) (hcell : w.cell? c = some cell) :
    cell.expression.blanked = e.blanked := by
  obtain ⟨out, hkeeps, -⟩ := h
  exact (hkeeps.cell hcell).blanked

theorem Preserves.sweep (h : w.Preserves c e w.agenda) : w.sweep.Preserves c e w.sweep.agenda := by
  obtain ⟨out, hkeeps, hout⟩ := h
  refine ⟨out, hkeeps.sweep, ?_⟩
  obtain ⟨cells, tree, hsweep, -⟩ := w.exists_sweep_eq
  rw [hsweep]
  exact hout

namespace Poised

variable (h : w.Poised task)
include h

/-- Only a command that is sent now is going to be answered anew. -/
theorem any_replies_perform (hid : id < w.nextCommand)
    (hnone : w.agenda.any (Task.replies id) = false) :
    id < (w.perform task).nextCommand ∧
      (w.perform task).agenda.any (Task.replies id) = false := by
  obtain ⟨hle, tasks, hagenda, hnew⟩ := w.perform_operations h.subscriptions h.prompt task
  refine ⟨hid.trans_le hle, ?_⟩
  rw [hagenda, List.any_append, hnone, Bool.or_false, List.any_eq_false]
  intro other hmem hreplies
  unfold Task.replies at hreplies
  split at hreplies
  · obtain ⟨⟨answer, heq⟩, -⟩ := hnew _ hmem
    cases heq
    rw [beq_iff_eq] at hreplies
    exact Nat.lt_irrefl _ (hreplies ▸ hid)
  · cases hreplies

/-- A task that does not give the cell another expression. -/
theorem preserves (hpreserves : w.Preserves c e (task :: w.agenda))
    (hedit : ∀ e, task ≠ .operate (.setExpression c e)) :
    (w.perform task).Preserves c e (w.perform task).agenda := by
  obtain ⟨out, hkeeps, hout⟩ := hpreserves
  have hnot : ∀ {op}, task = .operate op → op.edits c = false := by
    rintro op rfl
    cases op with
    | setExpression c' e' =>
      refine beq_eq_false_iff_ne.mpr ?_
      rintro rfl
      exact hedit e' rfl
    | _ => rfl
  by_cases hquiet : ∃ op, task :: w.agenda = [.operate op]
  · -- nothing is in progress, so that the plan fits and any command may be answered
    obtain ⟨op, heq⟩ := hquiet
    obtain ⟨rfl, -⟩ := List.cons.inj heq
    have hfits : w.Keeps c e none (.operate op :: w.agenda) := by
      refine ⟨hkeeps.nextCell, fun {cell} hcell => ?_⟩
      refine .of_fitting (hkeeps.cell hcell).blanked ((hkeeps.cell hcell).followed.resolve_right ?_)
      rintro ⟨⟨soon, renewal, later, hagenda, hrenews, -⟩, -⟩
      have hmem : renewal ∈ [Task.operate op] := by
        rw [← heq, hagenda]
        exact List.mem_append_right _ List.mem_cons_self
      rw [List.mem_singleton] at hmem
      subst hmem
      simp [Task.Renews] at hrenews
    exact ⟨none, hfits.perform (by simp [disturbs, hnot rfl]), fun _ => by rintro ⟨⟩⟩
  · have hundisturbed : w.disturbs c out task = false := by
      cases task with
      | operate op =>
        rcases h.operations op List.mem_cons_self with ⟨id, answer, rfl, -⟩ | ⟨-, heq⟩
        · have hother : out.isSome = true →
              (w.answered? (.answer (some id) answer) == out) = false := by
            intro hsome
            obtain ⟨id', rfl⟩ := Option.isSome_iff_exists.mp hsome
            have hne : id ≠ id' := by
              rintro rfl
              simpa [Task.replies] using (hout id rfl).2
            simp only [answered?]
            cases w.backend.channel <;> simp [hne]
          cases hsome : out.isSome with
          | false => simp [disturbs, Op.edits, hsome]
          | true => simp [disturbs, Op.edits, hother hsome]
        · exact absurd ⟨op, heq⟩ hquiet
      | _ => rfl
    refine ⟨out, hkeeps.perform hundisturbed, fun id hid => ?_⟩
    obtain ⟨hlt, hnone⟩ := hout id hid
    exact h.any_replies_perform hlt (List.any_eq_false.mpr fun other hmem =>
      List.any_eq_false.mp hnone other (List.mem_cons_of_mem _ hmem))

/-- The client gives the cell another expression. -/
theorem preserves_setExpression (htask : task = .operate (.setExpression c e))
    (hcell : w.cell? c = some cell) (hactive : ∀ id, cell.active = some id → id < w.nextCommand) :
    (w.perform task).Preserves c e (w.perform task).agenda := by
  subst htask
  have hrest : w.agenda = [] := by
    rcases h.operations _ List.mem_cons_self with ⟨id, answer, heq, -⟩ | ⟨-, heq⟩
    · cases heq
    · exact (List.cons.inj heq).2
  refine ⟨cell.active, keeps_setExpression (h.numbered hcell) (h.held (by rw [hcell]; rintro ⟨⟩)) hcell,
    fun id hid => h.any_replies_perform (hactive id hid) ?_⟩
  rw [hrest]
  rfl

/-- A new cell has the expression that it is given. -/
theorem preserves_newCell (hmakes : w.Makes c task) :
    ∃ e, (w.perform task).Preserves c e (w.perform task).agenda := by
  obtain ⟨rfl, position, expression, scope, automatic, rfl⟩ := hmakes
  obtain ⟨hnext, -, -, cell, tasks, hcell, -, hplan, -⟩ :=
    w.operate_newCell position expression scope automatic
  refine ⟨cell.expression, .of_fitting ?_ fun found hfound => ?_⟩
  · show w.nextCell < (w.operate (.newCell position expression scope automatic)).2.nextCell
    rw [hnext]
    exact Nat.lt_succ_self _
  · cases hcell.symm.trans hfound
    exact ⟨rfl, Cell.fitting_of_plan_eq_none hplan⟩

end Poised

/-! ### Chronicles -/

theorem Chronicle.poised (h : Chronicle backend may deeds w) (hprompt : backend.Prompt)
    (hagenda : w.agenda = task :: rest) :
    ({ w with agenda := rest } : Workspace).Poised task := by
  obtain ⟨hsecluded, -, past, hrun⟩ := h.exists_run hprompt
  exact hsecluded.poised (fun c => hrun.settled c) hagenda

/-- The active command of a cell was sent. -/
theorem Chronicle.lt_nextCommand (h : Chronicle backend may deeds w) (hprompt : backend.Prompt)
    (hcell : w.cell? c = some cell) (hactive : cell.active = some id) : id < w.nextCommand := by
  obtain ⟨f, -, hfits⟩ := h.exists_fate hprompt id
  have hf := hfits.cell hcell hactive
  refine Nat.lt_of_not_le fun hle => ?_
  rw [hfits.unsent.mpr hle] at hf
  cases hf

/-- In a chronicle, every cell keeps its expression. -/
theorem Chronicle.exists_preserves (h : Chronicle backend may deeds w) (hprompt : backend.Prompt)
    (hcell : w.cell? c ≠ none) : ∃ e, w.Preserves c e w.agenda := by
  induction h with
  | start => simp [cell?] at hcell
  | call op _ hquiet _ _ ih =>
    obtain ⟨e, out, hkeeps, -⟩ := ih hcell
    rw [hquiet] at hkeeps
    refine ⟨e, .of_fitting hkeeps.nextCell fun cell hcell => ?_⟩
    refine ⟨(hkeeps.cell hcell).blanked, (hkeeps.cell hcell).followed.resolve_right ?_⟩
    rintro ⟨⟨soon, renewal, later, hagenda, -⟩, -⟩
    simp at hagenda
  | @step deeds w task rest hbefore hagenda ih =>
    have hpoised := hbefore.poised hprompt hagenda
    rw [step_of_agenda hagenda] at hcell ⊢
    obtain ⟨cells, tree, hsweep, hcells⟩ :=
      (({ w with agenda := rest } : Workspace).perform task).exists_sweep_eq
    have hperformed : (({ w with agenda := rest } : Workspace).perform task).cell? c ≠ none := by
      obtain ⟨cell, hfound⟩ := Option.ne_none_iff_exists'.mp hcell
      rw [hsweep] at hfound
      rw [hcells hfound]
      rintro ⟨⟩
    by_cases hmakes : ({ w with agenda := rest } : Workspace).Makes c task
    · obtain ⟨e, he⟩ := hpoised.preserves_newCell hmakes
      exact ⟨e, he.sweep⟩
    have hpresent : w.cell? c ≠ none := (perform_turn hmakes).numbered.2 hperformed
    by_cases hedit : ∃ e, task = .operate (.setExpression c e)
    · obtain ⟨e, heq⟩ := hedit
      obtain ⟨cell, hfound⟩ := Option.ne_none_iff_exists'.mp hpresent
      exact ⟨e, (hpoised.preserves_setExpression heq hfound fun id hid =>
        hbefore.lt_nextCommand hprompt hfound hid).sweep⟩
    · obtain ⟨e, out, hkeeps, hout⟩ := ih hpresent
      rw [hagenda] at hkeeps hout
      have hpopped : ({ w with agenda := rest } : Workspace).Preserves c e (task :: rest) :=
        ⟨out, ⟨hkeeps.nextCell, hkeeps.cell⟩, hout⟩
      exact ⟨e, (hpoised.preserves hpopped fun e heq => hedit ⟨e, heq⟩).sweep⟩

/-- A task that does not give a cell another expression leaves it the one that it has, up to
results. -/
theorem Chronicle.blanked_perform (h : Chronicle backend may deeds w) (hprompt : backend.Prompt)
    (hagenda : w.agenda = task :: rest) (hcell : w.cell? c = some cell)
    (hcell' : (({ w with agenda := rest } : Workspace).perform task).cell? c = some cell')
    (hedit : ∀ e, task ≠ .operate (.setExpression c e)) :
    cell'.expression.blanked = cell.expression.blanked := by
  obtain ⟨e, out, hkeeps, hout⟩ := h.exists_preserves hprompt (by rw [hcell]; rintro ⟨⟩)
  rw [hagenda] at hkeeps hout
  have hpopped : ({ w with agenda := rest } : Workspace).Preserves c e (task :: rest) :=
    ⟨out, ⟨hkeeps.nextCell, hkeeps.cell⟩, hout⟩
  have hkept := (h.poised hprompt hagenda).preserves hpopped hedit
  exact (hkept.blanked hcell').trans (hpopped.blanked hcell).symm

end Workspace

end MathCanvas
