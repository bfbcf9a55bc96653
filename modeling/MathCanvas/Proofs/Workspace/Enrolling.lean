import MathCanvas.Proofs.Workspace.Descent
import MathCanvas.Proofs.Workspace.Posting

/-!
# Tasks that bring in new listeners

When definitions and readers are added, moved or removed, others may be told than before, so that
the heights of tasks that pass on values mean nothing any more. But no such task waits behind: on
the agenda the tasks stand in the order of their phases (`Phased`). The tasks that enroll a cell are
done while the cell is suspended, and they set off lower ones (`Workspace.enrolls_perform`).
-/

namespace MathCanvas

/-- Whether a task of one phase may stand before one of the other. Readers go before anybody is told
of anything. -/
def Phase.before : Phase → Phase → Bool
  | .release, _ | _, .release => true
  | .talk, later => later != .leave
  | .leave, later => later != .talk
  | .enroll, later => later == .enroll || later == .close
  | .close, _ => false

/-- A task of one phase may stand wherever one of the other may. -/
def Phase.Replaces (phase phase' : Phase) : Prop :=
  ∀ later, phase'.before later = true → phase.before later = true

theorem Phase.replaces_self (phase : Phase) : phase.Replaces phase := fun _ h => h

theorem Phase.release_replaces (phase : Phase) : Phase.release.Replaces phase := fun _ _ => rfl

theorem Phase.talk_replaces_enroll : Phase.talk.Replaces .enroll := by
  intro later
  cases later <;> simp [before]

theorem Phase.notifyReaders_replaces (s : ScopeId) (readers : List ReaderId) :
    (Task.notifyReaders s readers).phase.Replaces .enroll := by
  cases readers with
  | nil => exact release_replaces _
  | cons => exact talk_replaces_enroll

theorem Phase.leave_replaces_enroll : Phase.leave.Replaces .enroll := by
  intro later
  cases later <;> simp [before]

/-- The tasks stand in the order of their phases. -/
def Phased (tasks : List Task) : Prop :=
  tasks.Pairwise fun earlier later => earlier.phase.before later.phase = true

section Phased

variable {task : Task} {tasks more : List Task}

theorem phased_cons : Phased (task :: tasks) ↔
    (∀ later ∈ tasks, task.phase.before later.phase = true) ∧ Phased tasks :=
  List.pairwise_cons

theorem phased_append : Phased (tasks ++ more) ↔ Phased tasks ∧ Phased more ∧
    ∀ earlier ∈ tasks, ∀ later ∈ more, earlier.phase.before later.phase = true :=
  List.pairwise_append

theorem Task.phase_of_passes (h : task.passes = true) :
    task.phase = .talk ∨ task.phase = .release := by
  rwa [passes, Bool.or_eq_true, beq_iff_eq, beq_iff_eq] at h

theorem Task.passes_of_enrolls (h : task.enrolls = true) : task.passes = false := by
  rw [enrolls, Bool.or_eq_true, beq_iff_eq, beq_iff_eq] at h
  rcases h with h | h <;> rw [passes, h] <;> rfl

theorem phased_of_passes (h : ∀ task ∈ tasks, task.passes = true) : Phased tasks := by
  refine List.pairwise_of_forall_mem_list fun earlier he later hl => ?_
  rcases Task.phase_of_passes (h earlier he) with he | he <;>
    rcases Task.phase_of_passes (h later hl) with hl | hl <;> rw [he, hl] <;> rfl

/-- What takes the place of a task may stand before the tasks behind it. -/
theorem Phased.replace (h : Phased (task :: more)) (htasks : Phased tasks)
    (hphase : ∀ t ∈ tasks, t.phase.Replaces task.phase) : Phased (tasks ++ more) :=
  phased_append.mpr ⟨htasks, (phased_cons.mp h).2, fun earlier he later hl =>
    hphase earlier he later.phase ((phased_cons.mp h).1 later hl)⟩

/-- No values are passed on behind a task that enrolls somebody. -/
theorem Phased.ne_talk (h : Phased (task :: tasks)) (htask : task.passes = false) {later : Task}
    (hl : later ∈ tasks) : later.phase ≠ .talk := by
  intro htalk
  have hbefore := (phased_cons.mp h).1 later hl
  rw [htalk] at hbefore
  rw [Task.passes] at htask
  cases hphase : task.phase <;> simp_all [Phase.before]

/-- While values are passed on, no reader is about to go. -/
theorem Phased.not_removeReader (h : Phased (task :: tasks))
    (htask : task.phase = .talk ∨ task.phase = .enroll) (s : ScopeId) (r : ReaderId) :
    .removeReader s r ∉ task :: tasks := by
  intro hmem
  rcases List.mem_cons.mp hmem with rfl | hmem
  · rcases htask with htask | htask <;> cases htask
  · have hbefore := (phased_cons.mp h).1 _ hmem
    rcases htask with htask | htask <;> rw [htask] at hbefore <;> cases hbefore

/-- Behind a task that closes there is nothing left to be done. -/
theorem Phased.release (h : Phased (task :: tasks)) (htask : task.phase = .close) {later : Task}
    (hl : later ∈ tasks) : later.phase = .release := by
  have hbefore := (phased_cons.mp h).1 later hl
  rw [htask] at hbefore
  cases hphase : later.phase <;> simp_all [Phase.before]

end Phased

namespace Workspace

variable {w w' : Workspace} {g : Grading} {c c' : CellId} {cell cell' : Cell} {name : String}
  {s : ScopeId} {x : Nat} {role : Role} {task t : Task} {tasks : List Task} {k k' : Height}
  {readers : List ReaderId} {phase : Phase}

/-- The cells stay as they are enrolled, unless they are suspended, and are suspended or not as
before. -/
def Reserves (w w' : Workspace) : Prop :=
  ∀ (c : CellId) (cell' : Cell), w'.cell? c = some cell' → ∃ cell, w.cell? c = some cell ∧
    cell'.suspended = cell.suspended ∧ (cell.suspended = true ∨ cell'.SamePost cell)

theorem Suspended.reserve (h : w.Suspended c) (hcells : w.Reserves w') : w'.Suspended c := by
  intro cell' hcell'
  obtain ⟨cell, hcell, hsuspended, -⟩ := hcells _ _ hcell'
  rw [hsuspended]
  exact h cell hcell

theorem Withholds.reserve (h : w.Withholds s x role) (hcells : w.Reserves w') :
    w'.Withholds s x role := by
  intro c cell' name hcell' has
  obtain ⟨cell, hcell, hsuspended, hkept⟩ := hcells _ _ hcell'
  rw [hsuspended]
  rcases hkept with hkept | hpost
  · exact hkept
  · exact h c cell name hcell (hpost.has_iff.mp has)

/-- A task that passes on no values keeps its height. -/
theorem Under.reserve (h : w.Under g task k) (hcells : w.Reserves w') (htask : task.phase ≠ .talk) :
    w'.Under g task k := by
  cases task with
  | cell c driven =>
    cases driven with
    | refresh | invalidate | reconsider | evaluate | advance => exact absurd rfl htask
    | enter => exact h
    | endBatch => exact h
    | synchronize | addOutput | addInput | keepOutput => exact ⟨h.1.reserve hcells, h.2⟩
  | notifyReaders s readers =>
    cases readers with
    | nil =>
      obtain ⟨a, -, hle⟩ := h
      exact ⟨a, by simp, hle⟩
    | cons => exact absurd rfl htask
  | operate | notifyDefinition | tell | write => exact absurd rfl htask
  | moveDefinition | moveReader => exact ⟨h.1.reserve hcells, h.2⟩
  | removeDefinition | removeReader => exact h
  | _ => trivial

/-- What some tasks that enroll somebody set off is lower, and may stand where a task of a phase
stands. -/
structure Enrolls (g : Grading) (k : Height) (w' : Workspace) (phase : Phase) (tasks : List Task) :
    Prop where
  under : ∀ t ∈ tasks, ∃ k' < k, w'.Under g t k'
  replaces : ∀ t ∈ tasks, t.phase.Replaces phase
  phased : Phased tasks
  calm : ∀ t ∈ tasks, ∀ c, t.refreshes c = false

theorem Enrolls.nil : Enrolls g k w' phase [] := ⟨by simp, by simp, by simp [Phased], by simp⟩

/-- Whoever has to be told of a change of a scope is told before anything else happens. -/
theorem exists_notifyReaders_under (w' : Workspace) (g : Grading) (s : ScopeId)
    (readers : List ReaderId) (hk : .floor 1 ≤ k) :
    ∃ k' < k, w'.Under g (.notifyReaders s readers) k' := by
  obtain ⟨a, ha⟩ := exists_grade_gt g.of (readers.flatMap (w'.tree.listeners s))
  refine ⟨height 0 a 0 readers.length, lt_of_lt_of_le (height_lt_of_stage (by omega)) hk, a, ?_,
    le_refl _⟩
  intro r hr l hl _
  exact ha l (List.mem_flatMap.mpr ⟨r, hr, hl⟩)

theorem enrolls_notice (hk : .floor 1 ≤ k) (hphase : phase = .enroll ∨ readers = []) :
    Enrolls g k w' phase (noticeTasks s readers) where
  under t ht := by
    simp only [noticeTasks, List.mem_cons, List.not_mem_nil, or_false] at ht
    rcases ht with rfl | rfl
    · exact w'.exists_notifyReaders_under g s readers hk
    · exact ⟨.floor 0, lt_of_lt_of_le (height_lt_of_stage (by omega)) hk, trivial⟩
  replaces t ht := by
    simp only [noticeTasks, List.mem_cons, List.not_mem_nil, or_false] at ht
    rcases ht with rfl | rfl
    · rcases hphase with rfl | rfl
      · exact Phase.notifyReaders_replaces s readers
      · exact Phase.release_replaces _
    · exact Phase.release_replaces _
  phased := phased_of_passes fun t ht => by
    simp only [noticeTasks, List.mem_cons, List.not_mem_nil, or_false] at ht
    rcases ht with rfl | rfl
    · exact Task.passes_notifyReaders s readers
    · rfl
  calm t ht c := by
    simp only [noticeTasks, List.mem_cons, List.not_mem_nil, or_false] at ht
    rcases ht with rfl | rfl <;> rfl

/-- The readers that a cell does not want any more go first. -/
theorem phased_synchronize (hagenda : (w.synchronize c cell s).agenda = tasks ++ w.agenda) :
    Phased tasks := by
  have htrue : ∀ {α : Type} (l : List α), l.Pairwise fun _ _ => True :=
    fun l => List.pairwise_of_forall fun _ _ => trivial
  obtain rfl := List.append_cancel_right hagenda
  simp only [Phased, List.pairwise_append, List.pairwise_map, List.mem_append, List.mem_map,
    List.mem_singleton, or_imp, forall_and, forall_exists_index, and_imp, forall_apply_eq_imp_iff₂,
    forall_eq]
  simp [Task.phase, Phase.before, htrue]

/-- The tasks that bring a cell in step with its expression. -/
theorem enrolls_synchronize (hsuspended : cell.suspended = true)
    (howner : ∀ {c' : CellId} {cell' : Cell} {name n : String} {q : ScopeId} {x : Nat} {role : Role},
      w.cell? c' = some cell' → cell.Has name q x role → cell'.Has n q x role → c = c')
    (hk : .floor 3 ≤ k) : ∃ tasks, (w.synchronize c cell s).agenda = tasks ++ w.agenda ∧
      Enrolls g k (w.synchronize c cell s) .enroll tasks := by
  obtain ⟨tasks, heq, -, hidle, hsteps⟩ := w.synchronize_spec c cell s
  have hbelow : ∀ n < 3, Height.floor n < k := fun n hn =>
    lt_of_lt_of_le (height_lt_of_stage hn) hk
  have hkind : ∀ t ∈ tasks, t = .releaseScope s ∨ Steps c cell s t := by
    intro t ht
    by_cases hrank : t.rank = .idle
    · exact .inl (hidle t ht hrank)
    · exact .inr ((hsteps t hrank).mp ht)
  have hphased : Phased tasks := phased_synchronize (congrArg agenda heq)
  rw [heq]
  refine ⟨tasks, rfl, fun t ht => ?_, fun t ht => ?_, hphased, fun t ht c' => ?_⟩
  · have hself : ((w.putCell c cell.inStep).push tasks).Suspended c := by
      intro found hfound
      cases (cell?_putCell w c cell.inStep).symm.trans hfound
      exact hsuspended
    rcases hkind t ht with rfl | hstep
    · exact ⟨_, hbelow 0 (by omega), trivial⟩
    cases hstep with
    | @remove role n q x has unwanted =>
      refine ⟨.floor 1, hbelow 1 (by omega), ?_⟩
      cases role <;> exact le_refl _
    | @move role n q x has wanted =>
      -- what is moved belongs to the cell alone, which is suspended
      have hwithholds : ((w.putCell c cell.inStep).push tasks).Withholds q x role := by
        intro c' found m hfound has'
        rcases Posted.eq_or_of_cell? hfound with ⟨rfl, rfl⟩ | ⟨hne, hfound⟩
        · exact hsuspended
        · exact absurd (howner hfound has has').symm hne
      refine ⟨.floor 1, hbelow 1 (by omega), ?_⟩
      cases role <;> exact ⟨hwithholds, le_refl _⟩
    | @add role n wanted =>
      cases role with
      | definition => exact ⟨.floor 2, hbelow 2 (by omega), hself, le_refl _⟩
      | reader => exact ⟨.floor 1, hbelow 1 (by omega), hself, le_refl _⟩
  · rcases hkind t ht with rfl | hstep
    · exact Phase.release_replaces _
    · cases hstep with
      | @remove role =>
        cases role with
        | reader => exact Phase.leave_replaces_enroll
        | definition => exact Phase.replaces_self _
      | @move role | @add role => cases role <;> exact Phase.replaces_self _
  · rcases hkind t ht with rfl | hstep
    · rfl
    · cases hstep with
      | @remove role | @move role | @add role => cases role <;> simp [Role.removing, Role.moving,
          Role.adding, Task.refreshes, CellTask.refreshes]

/-- What enrolls somebody sets off lower tasks. -/
theorem enrolls_perform
    (howner : ∀ {c c' : CellId} {cell cell' : Cell} {name n : String} {q : ScopeId} {x : Nat}
      {role : Role}, w.cell? c = some cell → w.cell? c' = some cell' → cell.Has name q x role →
      cell'.Has n q x role → c = c')
    (henrolls : task.enrolls = true) (h : w.Under g task k) :
    ∃ tasks, (w.perform task).agenda = tasks ++ w.agenda ∧
      Enrolls g k (w.perform task) task.phase tasks := by
  cases task with
  | moveDefinition | moveReader => exact ⟨_, rfl, enrolls_notice h.2 (.inl rfl)⟩
  | removeDefinition => exact ⟨_, rfl, enrolls_notice h (.inl rfl)⟩
  | removeReader s r => exact ⟨_, rfl, enrolls_notice h (.inr (w.tree.removeReader_fst s r))⟩
  | keepDefinition => exact ⟨[], rfl, .nil⟩
  | cell c driven =>
    cases hcell : w.cell? c with
    | none =>
      rw [perform_cell_of_none hcell]
      exact ⟨[], rfl, .nil⟩
    | some cell =>
      rw [perform_cell hcell]
      cases driven with
      | synchronize =>
        unfold performCell
        simp only
        split
        · exact ⟨[], rfl, .nil⟩
        · exact enrolls_synchronize (h.1 cell hcell) (howner hcell) h.2
      | addOutput s name position =>
        unfold performCell
        simp only
        split
        · exact ⟨[], rfl, .nil⟩
        split
        · exact ⟨[], rfl, .nil⟩
        rename_i slot readers tree hadd
        refine ⟨[.notifyReaders s readers, .cell c (.keepOutput s name slot)], rfl,
          fun t ht => ?_, fun t ht => ?_, ?_, fun t ht c' => ?_⟩
        · simp only [List.mem_cons, List.not_mem_nil, or_false] at ht
          rcases ht with rfl | rfl
          · exact exists_notifyReaders_under _ g s readers ((height_lt_of_stage (by omega)).le.trans h.2)
          · exact ⟨.floor 1, lt_of_lt_of_le (height_lt_of_stage (by omega)) h.2, h.1, le_refl _⟩
        · simp only [List.mem_cons, List.not_mem_nil, or_false] at ht
          rcases ht with rfl | rfl
          · exact Phase.notifyReaders_replaces s readers
          · exact Phase.replaces_self _
        · have hbefore := Phase.notifyReaders_replaces s readers .enroll rfl
          exact phased_cons.mpr ⟨List.forall_mem_singleton.mpr hbefore, List.pairwise_singleton _ _⟩
        · simp only [List.mem_cons, List.not_mem_nil, or_false] at ht
          rcases ht with rfl | rfl
          · rfl
          · simp [Task.refreshes, CellTask.refreshes]
      | addInput s name position =>
        unfold performCell
        simp only
        split
        · exact ⟨[], rfl, .nil⟩
        split <;> exact ⟨[], rfl, .nil⟩
      | keepOutput => exact ⟨[], rfl, .nil⟩
      | _ => cases henrolls
  | notifyReaders s readers => cases readers <;> cases henrolls
  | _ => cases henrolls

/-- Meanwhile the cells are left alone, except for the one that is enrolled. -/
theorem reserves_perform (henrolls : task.enrolls = true) (h : w.Under g task k) :
    w.Reserves (w.perform task) := by
  intro c cell' hcell'
  have hmakes : ¬w.Makes c task := by
    rintro ⟨-, position, expression, scope, automatic, rfl⟩
    cases henrolls
  obtain ⟨cell, hcell⟩ := Option.ne_none_iff_exists'.mp
    ((perform_turn hmakes).numbered.2 (by rw [hcell']; rintro ⟨⟩))
  refine ⟨cell, hcell, ?_⟩
  cases perform_alters hcell hmakes hcell' with
  | same => exact ⟨rfl, .inr (.refl _)⟩
  | synchronize | keepOutput | addInput => exact ⟨rfl, .inl (h.1 cell hcell)⟩
  | _ => cases henrolls

end Workspace

end MathCanvas
