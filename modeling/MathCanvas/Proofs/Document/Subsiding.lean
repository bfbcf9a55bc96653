import MathCanvas.Proofs.Document.Cascade
import MathCanvas.Proofs.Workspace.Status

/-!
# Changes that subside

Values are passed on, and nothing else happens (`Workspace.Subsides`). All that is set off is lower
than what sets it off, so that what is below a height stays there (`Workspace.Below.step`). A cell
that has its turn while everything is too low to refresh it is not stale afterwards
(`Workspace.Refreshed.step`).
-/

namespace MathCanvas

/-- A cell that does not begin a run is not stale. -/
theorem Cell.begin_status (cell : Cell) (unset : CellInput → Bool) :
    (cell.begin unset).1 = none ∧ (cell.begin unset).2.status ≠ .stale ∨
      (cell.begin unset).1 = some (cell.begin unset).2.generation ∧
        (cell.begin unset).2.plan ≠ none ∧ (cell.begin unset).2.status = cell.status := by
  unfold Cell.begin
  cases cell.scope with
  | none => exact .inl ⟨rfl, by simp⟩
  | some s =>
    simp only
    split
    · exact .inl ⟨rfl, by simp⟩
    · exact .inl ⟨rfl, by simp⟩
    · split
      · exact .inl ⟨rfl, by simp⟩
      · exact .inr ⟨rfl, by simp, rfl⟩

namespace Workspace

variable {w w' : Workspace} {g : Grading} {c c' : CellId} {cell cell' : Cell} {task t : Task}
  {tasks rest : List Task} {k K : Height} {op : Op} {ops : List Op} {ids : List CellId}

/-! ### What stays below a height -/

/-- All tasks on the agenda are lower than a height. -/
def Below (g : Grading) (K : Height) (w : Workspace) : Prop :=
  ∀ t ∈ w.agenda, ∃ k < K, w.Under g t k

/-- The tasks by which cells are enrolled are not that low. -/
theorem Under.passes (h : w.Under g task k) (hk : k < .floor 1) : task.passes = true := by
  have hhigh : ∀ {n}, 1 ≤ n → ¬Height.floor n ≤ k := fun {n} hn hle => by
    have hfloor : Height.floor 1 ≤ .floor n := by
      rcases Nat.lt_or_eq_of_le hn with hlt | rfl
      · exact (height_lt_of_stage hlt).le
      · exact le_refl _
    exact absurd (hfloor.trans hle) (not_le_of_gt hk)
  cases task with
  | cell c driven =>
    cases driven with
    | enter => exact absurd h (hhigh (by omega))
    | endBatch | synchronize | addOutput | keepOutput | addInput =>
      exact absurd h.2 (hhigh (by omega))
    | _ => rfl
  | moveDefinition | moveReader => exact absurd h.2 (hhigh (by omega))
  | removeDefinition | removeReader | keepDefinition => exact absurd h (hhigh (by omega))
  | notifyReaders s readers => exact Task.passes_notifyReaders s readers
  | _ => rfl

/-- A change in which values are passed on, and nothing else happens. -/
structure Subsides (g : Grading) (w : Workspace) : Prop where
  cascading : w.Cascading
  arranged : w.Arranged g
  below : w.Below g (.floor 1)
  called : ∀ op, .operate op ∉ w.agenda.tail

theorem Subsides.answers (h : w.Subsides g) (hagenda : w.agenda = task :: rest) :
    ∀ op, task = .operate op → op.Answers := by
  rintro op rfl
  obtain ⟨k, -, hunder⟩ := h.below (.operate op) (by rw [hagenda]; exact List.mem_cons_self)
  exact hunder.answers

/-- A task gives way to lower ones, and the others keep their heights. -/
theorem Subsides.step (h : w.Subsides g) (hagenda : w.agenda = task :: rest) :
    w.step.Subsides g ∧ ∃ tasks, w.step.agenda = tasks ++ rest ∧
      (∀ {k}, w.Under g task k → ∀ t ∈ tasks, ∃ k' < k, w.step.Under g t k') ∧
      ∀ {t k}, t ∈ rest → w.Under g t k → w.step.Under g t k := by
  have hw := h.cascading
  have hop := h.answers hagenda
  obtain ⟨k, hk, hunder⟩ := h.below task (by rw [hagenda]; exact List.mem_cons_self)
  have hpasses := hunder.passes hk
  let v : Workspace := { w with agenda := rest }
  have hgraded : w.Graded g := by
    refine h.arranged.graded (fun t ht => ?_) hw.enlisted hw.secluded hw.spaced
      fun s r hmem => ?_
    · obtain ⟨k, -, hunder⟩ := h.below t ht
      exact ⟨k, hunder⟩
    · obtain ⟨k, hk, hunder⟩ := h.below _ hmem
      cases hunder.passes hk
  have hcalled : ∀ op, .operate op ∉ rest := by
    have htail := h.called
    rwa [hagenda, List.tail_cons] at htail
  have hspawns : ∀ {k}, w.Under g task k → Spawns g v task k (v.perform task) := fun hunder =>
    spawns_perform (fun _ => ⟨hgraded.output, hgraded.importer⟩) hw.enlisted.ready.tied.allConsistent
      hw.secluded.subscriptions hw.immediate hw.secluded.attuned.silent hpasses
      (hunder.of_same rfl rfl rfl)
  have hproceeds : v.Proceeds (v.perform task) :=
    proceeds_perform hw.secluded.subscriptions hw.immediate.prompt hpasses hop
  have hheld : ∀ {c : CellId}, (v.perform task).cell? c ≠ none → c ∈ (v.perform task).heldCells :=
    fun hcell => hw.held_after hop hcell
  obtain ⟨tasks, htasks, -⟩ := hspawns hunder
  have hlower : ∀ {k}, w.Under g task k → ∀ t ∈ tasks, ∃ k' < k, w.step.Under g t k' := by
    intro k hunder t ht
    obtain ⟨k', hk', ht⟩ := ((hspawns hunder).yields htasks t ht).under
    rw [step_of_agenda hagenda]
    exact ⟨k', hk', ht.sweep hheld⟩
  have hkept : ∀ {t k}, t ∈ rest → w.Under g t k → w.step.Under g t k := by
    intro t k ht hunder
    have hsame : v.Under g t k := hunder.of_same rfl rfl rfl
    rw [step_of_agenda hagenda]
    exact (hsame.proceed hproceeds fun op heq => hcalled op (heq ▸ ht)).sweep hheld
  have hstep : w.step.agenda = tasks ++ rest := by
    rw [step_of_agenda hagenda, sweep_agenda]
    exact htasks
  refine ⟨⟨hw.step hagenda hop, ?_, fun t ht => ?_, ?_⟩, tasks, hstep, hlower, hkept⟩
  · rw [step_of_agenda hagenda]
    have harranged : v.Arranged g :=
      ⟨h.arranged.cells, h.arranged.scopes, h.arranged.within, h.arranged.nested⟩
    refine (harranged.stay (stays_perform hop ?_)).stay (stays_sweep _)
    rintro c scope rfl
    cases hpasses
  · rw [hstep] at ht
    rcases List.mem_append.mp ht with ht | ht
    · obtain ⟨k', hk', hunder'⟩ := hlower hunder t ht
      exact ⟨k', hk'.trans hk, hunder'⟩
    · obtain ⟨k', hk', hunder'⟩ := h.below t (by rw [hagenda]; exact List.mem_cons_of_mem _ ht)
      exact ⟨k', hk', hkept ht hunder'⟩
  · rw [step_of_agenda hagenda, sweep_agenda]
    exact operate_not_mem_tail (w := v) hw.secluded.subscriptions hw.immediate task hcalled

/-- What is below a height stays there. -/
theorem Below.step (h : w.Below g K) (hsubsides : w.Subsides g)
    (hagenda : w.agenda = task :: rest) : w.step.Below g K := by
  obtain ⟨-, tasks, hstep, hlower, hkept⟩ := hsubsides.step hagenda
  intro t ht
  rw [hstep] at ht
  rcases List.mem_append.mp ht with ht | ht
  · obtain ⟨k, hk, hunder⟩ := h task (by rw [hagenda]; exact List.mem_cons_self)
    obtain ⟨k', hk', hunder'⟩ := hlower hunder t ht
    exact ⟨k', hk'.trans hk, hunder'⟩
  · obtain ⟨k, hk, hunder⟩ := h t (by rw [hagenda]; exact List.mem_cons_of_mem _ ht)
    exact ⟨k, hk, hkept ht hunder⟩

/-! ### A cell that is not stale when it has had its turn -/

/-- Only the second half of a refresh makes a cell stale. A run that a stale cell is on goes on,
unless the cell is invalidated. -/
theorem Alters.of_stale (halters : w.Alters c cell task cell') (hpasses : task.passes = true)
    (hop : ∀ op, task = .operate op → op.Answers) (hreconsider : task ≠ .cell c .reconsider)
    (hevaluate : task ≠ .cell c .evaluate) (hstale : cell'.status = .stale) :
    cell.status = .stale ∧ (task ≠ .cell c .invalidate →
      cell'.generation = cell.generation ∧ (cell.plan ≠ none → cell'.plan ≠ none)) := by
  cases halters with
  | same | told | drop => exact ⟨hstale, fun _ => ⟨rfl, id⟩⟩
  | invalidate => exact ⟨hstale, fun hne => absurd rfl hne⟩
  | rest => exact absurd rfl hreconsider
  | evaluate => exact absurd rfl hevaluate
  | finish | send | fail => cases hstale
  | assign | answer => exact ⟨hstale, fun _ => ⟨rfl, fun _ => by simp [Cell.complete]⟩⟩
  | enter | synchronize | keepOutput | addInput | endBatch => cases hpasses
  | unregister | edit | move | automate => exact (hop _ rfl).elim

/-- If a cell goes on with a run and is still stale, it is going to go on with it again. -/
theorem advance_mem_of_stale (hcell : w.cell? c = some cell) (hplan : cell.plan ≠ none)
    (hcell' : (w.perform (.cell c (.advance cell.generation))).cell? c = some cell')
    (hstale : cell'.status = .stale) :
    .cell c (.advance cell.generation) ∈
      (w.perform (.cell c (.advance cell.generation))).agenda := by
  have hput : ∀ {v : Workspace} {new : Cell}, (v.putCell c new).cell? c = some cell' →
      new = cell' := fun hfound =>
    Option.some.inj ((cell?_putCell _ _ _).symm.trans hfound)
  obtain ⟨plan, hplan⟩ := Option.ne_none_iff_exists'.mp hplan
  rw [perform_cell hcell] at hcell' ⊢
  unfold performCell advance at hcell' ⊢
  simp only [hplan, ne_eq, not_true_eq_false, if_false] at hcell' ⊢
  cases hnext : plan.next cell.expression with
  | finished =>
    simp only [hnext] at hcell'
    rw [← hput hcell'] at hstale
    cases hstale
  | request e =>
    simp only [hnext] at hcell'
    rw [← hput hcell'] at hstale
    cases hstale
  | assign target value =>
    exact List.mem_append_left _ (List.mem_append_right _ (List.mem_singleton.mpr rfl))

/-- A cell is not stale, or is going to evaluate, or is on a run that goes on. -/
def Refreshed (g : Grading) (c : CellId) (w : Workspace) : Prop :=
  ∀ cell, w.cell? c = some cell → cell.status ≠ .stale ∨
    (∃ pre, w.agenda = pre ++ [.cell c .evaluate, .releaseCell c]) ∨
    .cell c (.advance cell.generation) ∈ w.agenda ∧ cell.plan ≠ none ∧
      w.Below g (height 0 (g.cell c) 4 0)

/-- When nothing is in progress, the cell is not stale. -/
theorem Refreshed.status_ne (h : w.Refreshed g c) (hquiet : w.agenda = [])
    (hcell : w.cell? c = some cell) : cell.status ≠ .stale := by
  rcases h cell hcell with hstatus | ⟨pre, hagenda⟩ | ⟨hmem, -⟩
  · exact hstatus
  · rw [hquiet] at hagenda
    simp at hagenda
  · rw [hquiet] at hmem
    cases hmem

/-- A cell after a step was there before, and sweeping did not change it. -/
theorem exists_before_step (hagenda : w.agenda = task :: rest)
    (hop : ∀ op, task = .operate op → op.Answers) (hcell' : w.step.cell? c = some cell') :
    (({ w with agenda := rest } : Workspace).perform task).cell? c = some cell' ∧
      ¬({ w with agenda := rest } : Workspace).Makes c task ∧ ∃ cell, w.cell? c = some cell := by
  have hperformed :
      (({ w with agenda := rest } : Workspace).perform task).cell? c = some cell' := by
    obtain ⟨cells, tree, heq, hcells⟩ :=
      (({ w with agenda := rest } : Workspace).perform task).exists_sweep_eq
    rw [step_of_agenda hagenda, heq] at hcell'
    exact hcells hcell'
  have hmakes : ¬({ w with agenda := rest } : Workspace).Makes c task := by
    rintro ⟨-, position, expression, scope, automatic, rfl⟩
    exact hop _ rfl
  exact ⟨hperformed, hmakes, Option.ne_none_iff_exists'.mp
    ((perform_turn hmakes).numbered.2 (by rw [hperformed]; rintro ⟨⟩))⟩

section Step

variable (h : w.Refreshed g c) (hsubsides : w.Subsides g)
  (hbelow : w.Below g (height 0 (g.cell c) 5 0))
include h hsubsides hbelow

/-- The cell has its turn. -/
theorem Refreshed.evaluate (hagenda : w.agenda = .cell c .evaluate :: rest) :
    w.step.Refreshed g c := by
  obtain ⟨-, tasks, hstep, hlower, -⟩ := hsubsides.step hagenda
  intro cell' hcell'
  obtain ⟨hperformed, -, cell, hcell⟩ :=
    exists_before_step hagenda (hsubsides.answers hagenda) hcell'
  let v : Workspace := { w with agenda := rest }
  let unset : CellInput → Bool := fun i => (v.inputValue i).isUnset
  have hperform : v.perform (.cell c .evaluate) = (v.putCell c (cell.begin unset).2).push
      ((cell.begin unset).1.toList.map fun generation => .cell c (.advance generation)) :=
    perform_cell (w := v) hcell .evaluate
  have hbegun : (cell.begin unset).2 = cell' := by
    rw [hperform] at hperformed
    exact Option.some.inj ((cell?_putCell v c _).symm.trans hperformed)
  rw [← hbegun]
  rcases cell.begin_status unset with ⟨-, hstatus⟩ | ⟨hgeneration, hplan, hstatus⟩
  · exact .inl hstatus
  have hadvance : .cell c (.advance (cell.begin unset).2.generation) ∈ w.step.agenda := by
    rw [step_of_agenda hagenda, sweep_agenda, hperform, hgeneration]
    exact List.mem_cons_self
  rcases h cell hcell with hbefore | ⟨pre, heq⟩ | ⟨-, -, hlow⟩
  · exact .inl (hstatus ▸ hbefore)
  · rw [hagenda] at heq
    cases pre with
    | nil =>
      -- only what the run sets off is left
      refine .inr (.inr ⟨hadvance, hplan, fun t ht => ?_⟩)
      have hunder : w.Under g (.cell c .evaluate) (height 0 (g.cell c) 3 0) := by
        obtain ⟨k, -, hunder⟩ := hbelow _ (by rw [hagenda]; exact List.mem_cons_self)
        exact fun found hfound => ⟨(hunder found hfound).1, le_refl _⟩
      have hrank : height 0 (g.cell c) 3 0 < height 0 (g.cell c) 4 0 :=
        height_lt_of_rank (by omega)
      rw [hstep, (List.cons.inj heq).2] at ht
      rcases List.mem_append.mp ht with ht | ht
      · obtain ⟨k, hk, ht⟩ := hlower hunder t ht
        exact ⟨k, hk.trans hrank, ht⟩
      · obtain rfl := List.mem_singleton.mp ht
        exact ⟨_, hrank, trivial⟩
    | cons first pre =>
      rw [List.cons_append] at heq
      refine .inr (.inl ⟨tasks ++ pre, ?_⟩)
      rw [hstep, (List.cons.inj heq).2, List.append_assoc]
  · exact .inr (.inr ⟨hadvance, hplan, hlow.step hsubsides hagenda⟩)

theorem Refreshed.step (hagenda : w.agenda = task :: rest) : w.step.Refreshed g c := by
  by_cases hevaluate : task = .cell c .evaluate
  · subst hevaluate
    exact h.evaluate hsubsides hbelow hagenda
  have hop := hsubsides.answers hagenda
  have hhead : task ∈ w.agenda := by rw [hagenda]; exact List.mem_cons_self
  obtain ⟨-, tasks, hstep, -⟩ := hsubsides.step hagenda
  have hpasses : task.passes = true := by
    obtain ⟨k, hk, hunder⟩ := hsubsides.below task hhead
    exact hunder.passes hk
  intro cell' hcell'
  obtain ⟨hperformed, hmakes, cell, hcell⟩ := exists_before_step hagenda hop hcell'
  -- what would make the cell stale is too high
  have hreconsider : task ≠ .cell c .reconsider := by
    rintro rfl
    obtain ⟨k, hk, hunder⟩ := hbelow _ hhead
    exact absurd (hunder cell hcell).2 (not_le_of_gt hk)
  by_cases hstale : cell'.status = .stale
  · let v : Workspace := { w with agenda := rest }
    have hfound : v.cell? c = some cell := hcell
    obtain ⟨hbefore, hgoes⟩ :=
      (perform_alters hfound hmakes hperformed).of_stale hpasses hop hreconsider hevaluate hstale
    rcases h cell hcell with hstatus | ⟨pre, heq⟩ | ⟨hmem, hplan, hlow⟩
    · exact absurd hbefore hstatus
    · rw [hagenda] at heq
      cases pre with
      | nil => exact absurd (List.cons.inj heq).1 hevaluate
      | cons first pre =>
        rw [List.cons_append] at heq
        refine .inr (.inl ⟨tasks ++ pre, ?_⟩)
        rw [hstep, (List.cons.inj heq).2, List.append_assoc]
    · have hinvalidate : task ≠ .cell c .invalidate := by
        rintro rfl
        obtain ⟨k, hk, hunder⟩ := hlow _ hhead
        exact absurd (hunder cell hcell).2 (not_le_of_gt hk)
      obtain ⟨hgeneration, hplan'⟩ := hgoes hinvalidate
      refine .inr (.inr ⟨?_, hplan' hplan, hlow.step hsubsides hagenda⟩)
      rw [hgeneration]
      rw [hagenda] at hmem
      rcases List.mem_cons.mp hmem with heq | hmem
      · subst heq
        rw [step_of_agenda hagenda, sweep_agenda]
        exact advance_mem_of_stale hfound hplan hperformed hstale
      · rw [hstep]
        exact List.mem_append_right _ hmem
  · exact .inl hstale

end Step

end Workspace

end MathCanvas
