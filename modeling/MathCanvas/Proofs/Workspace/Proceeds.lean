import MathCanvas.Proofs.Workspace.Heights
import MathCanvas.Proofs.Workspace.Links

/-!
# While values are passed on

A task passes on values, or enrolls somebody, or ends a change (`Task.phase`). While values are
passed on, nobody is enrolled anew, and a cell only goes on with its runs (`Workspace.Proceeds`,
`Workspace.proceeds_perform`), so that the tasks that wait keep the heights that they have
(`Workspace.Under.proceed`).
-/

namespace MathCanvas

/-- What part a task has in a change. -/
inductive Phase where
  /-- Values are passed on. -/
  | talk
  /-- A reader goes, of which nobody is told. -/
  | leave
  /-- Somebody is enrolled, moves or goes. -/
  | enroll
  /-- A cell enters a scope, or has been brought in step. -/
  | close
  /-- A reference or a command is given up, or nobody is left to be told. -/
  | release
  deriving DecidableEq

def Task.phase : Task → Phase
  | .removeReader .. => .leave
  | .moveDefinition .. | .moveReader .. | .removeDefinition .. | .keepDefinition ..
  | .cell _ .synchronize | .cell _ (.addOutput ..) | .cell _ (.keepOutput ..)
  | .cell _ (.addInput ..) => .enroll
  | .cell _ (.enter _) | .cell _ (.endBatch ..) => .close
  | .notifyReaders _ [] | .cancel _ | .releaseScope _ | .releaseCell _ => .release
  | _ => .talk

/-- Whether a task passes on values, or gives something up. -/
def Task.passes (task : Task) : Bool := task.phase == .talk || task.phase == .release

/-- Whether a task belongs to the enrolling of somebody. -/
def Task.enrolls (task : Task) : Bool := task.phase == .leave || task.phase == .enroll

theorem Task.passes_notifyReaders (s : ScopeId) (readers : List ReaderId) :
    (Task.notifyReaders s readers).passes = true := by
  cases readers <;> rfl

/-- Whether a task of a cell belongs to a refresh. -/
def CellTask.refreshes : CellTask → Bool
  | .refresh | .invalidate | .reconsider | .evaluate | .advance _ => true
  | _ => false

/-- Whether a task belongs to a refresh of a cell. -/
def Task.refreshes (c : CellId) : Task → Bool
  | .cell c' task => c' == c && task.refreshes
  | _ => false

theorem Task.refreshes_cell {c c' : CellId} {task : CellTask} :
    (Task.cell c task).refreshes c' = true ↔ c = c' ∧ task.refreshes = true := by
  simp [refreshes]

theorem Task.rank_of_passes {task : Task} (h : task.passes = true) : task.rank = .idle := by
  cases task with
  | cell c driven => cases driven <;> first | rfl | cases h
  | moveDefinition | moveReader | removeDefinition | removeReader | keepDefinition => cases h
  | _ => rfl

/-- A stage has a value less to go. -/
theorem Plan.length_complete {plan : Plan} (h : plan.stages ≠ []) (e value : Expr) :
    (plan.complete e value).2.2.stages.length + 1 = plan.stages.length := by
  unfold complete
  cases hstages : plan.stages with
  | nil => exact absurd hstages h
  | cons stage rest =>
    simp only
    split <;> simp

theorem Plan.length_complete_le (plan : Plan) (e value : Expr) :
    (plan.complete e value).2.2.stages.length ≤ plan.stages.length := by
  by_cases h : plan.stages = []
  · rw [complete, h]
    simp [h]
  · have hlength := length_complete h e value
    omega

/-- As long as there is something to do, there are stages. -/
theorem Plan.stages_ne_nil {plan : Plan} {e : Expr} (h : plan.next e ≠ .finished) :
    plan.stages ≠ [] := by
  intro hnil
  rw [next, hnil] at h
  exact h rfl

/-! ### Cells that go on with their runs -/

/-- A cell stays enrolled as it is, and if it does not begin another run, no stage is added to the
run that it is on. -/
structure Cell.Proceeds (cell cell' : Cell) : Prop where
  post : cell'.SamePost cell
  suspended : cell'.suspended = cell.suspended
  generation : cell.generation ≤ cell'.generation
  plan : cell'.generation = cell.generation → ∀ plan', cell'.plan = some plan' →
    ∃ plan, cell.plan = some plan ∧ plan'.stages.length ≤ plan.stages.length

namespace Workspace

variable {w w' : Workspace} {g : Grading} {c c' : CellId} {cell cell' : Cell} {name : String}
  {s : ScopeId} {x : Nat} {r : ReaderId} {l : Listener} {task t : Task} {tasks : List Task}
  {k k' : Height} {readers : List ReaderId}

/-- The cells go on with their runs, and nobody begins to listen. -/
structure Proceeds (w w' : Workspace) : Prop where
  cells : ∀ {c : CellId} {cell' : Cell}, w'.cell? c = some cell' →
    ∃ cell, w.cell? c = some cell ∧ cell.Proceeds cell'
  present : ∀ {c : CellId}, w.cell? c ≠ none → w'.cell? c ≠ none
  hushes : w.tree.Hushes w'.tree

theorem Proceeds.hears (h : w.Proceeds w') (hl : w'.Hears l) : w.Hears l := by
  cases l with
  | input c name =>
    obtain ⟨cell', hcell', hawake⟩ := hl
    obtain ⟨cell, hcell, hproceeds⟩ := h.cells hcell'
    rw [hproceeds.suspended] at hawake
    exact ⟨cell, hcell, hawake⟩
  | _ => exact hl

theorem Drives.proceed {rank : Nat} (h : w.Drives g c rank k) (hproceeds : w.Proceeds w') :
    w'.Drives g c rank k := by
  intro cell' hcell'
  obtain ⟨cell, hcell, hcells⟩ := hproceeds.cells hcell'
  rw [hcells.suspended]
  exact h cell hcell

theorem Suspended.proceed (h : w.Suspended c) (hproceeds : w.Proceeds w') : w'.Suspended c := by
  intro cell' hcell'
  obtain ⟨cell, hcell, hcells⟩ := hproceeds.cells hcell'
  rw [hcells.suspended]
  exact h cell hcell

theorem Withholds.proceed {role : Role} (h : w.Withholds s x role) (hproceeds : w.Proceeds w') :
    w'.Withholds s x role := by
  intro c cell' name hcell' has
  obtain ⟨cell, hcell, hcells⟩ := hproceeds.cells hcell'
  rw [hcells.suspended]
  exact h c cell name hcell (hcells.post.has_iff.mp has)

/-- A task that waits keeps its height, unless it is an operation. -/
theorem Under.proceed (h : w.Under g task k) (hproceeds : w.Proceeds w')
    (htask : ∀ op, task ≠ .operate op) : w'.Under g task k := by
  cases task with
  | tell l v => exact fun hhears => h (hproceeds.hears hhears)
  | notifyReaders s readers =>
    obtain ⟨a, hlisteners, hle⟩ := h
    exact ⟨a, fun r hr l hl hhears =>
      hlisteners r hr l (hproceeds.hushes s r l hl) (hproceeds.hears hhears), hle⟩
  | notifyDefinition s x => exact h
  | write s x v =>
    obtain ⟨c, cell, name, hcell, hawake, has, hle⟩ := h
    obtain ⟨cell', hcell'⟩ := Option.ne_none_iff_exists'.mp
      (hproceeds.present (by rw [hcell]; rintro ⟨⟩))
    obtain ⟨before, hbefore, hcells⟩ := hproceeds.cells hcell'
    cases hcell.symm.trans hbefore
    exact ⟨c, cell', name, hcell', hcells.suspended.trans hawake, hcells.post.has_iff.mpr has, hle⟩
  | cell c driven =>
    cases driven with
    | refresh | reconsider | evaluate | invalidate => exact Drives.proceed h hproceeds
    | advance generation =>
      intro cell' hcell'
      obtain ⟨cell, hcell, hcells⟩ := hproceeds.cells hcell'
      obtain ⟨hawake, hle, hlow⟩ := h cell hcell
      refine ⟨hcells.suspended.trans hawake, hle.trans hcells.generation,
        fun heq plan' hplan' => ?_⟩
      -- the cell has begun no other run since
      have hsame : cell'.generation = cell.generation :=
        Nat.le_antisymm (heq ▸ hle) hcells.generation
      obtain ⟨plan, hplan, hlength⟩ := hcells.plan hsame plan' hplan'
      refine le_trans ?_ (hlow (heq.trans hsame) plan hplan)
      exact height_le_iff.mpr (.inr ⟨rfl, .inr ⟨rfl, .inr ⟨rfl, by omega⟩⟩⟩)
    | enter => exact h
    | endBatch => exact h
    | synchronize | addOutput | addInput | keepOutput => exact ⟨h.1.proceed hproceeds, h.2⟩
  | operate op => exact absurd rfl (htask op)
  | moveDefinition | moveReader => exact ⟨h.1.proceed hproceeds, h.2⟩
  | removeDefinition | removeReader | keepDefinition => exact h
  | _ => trivial

/-! ### What passes on values -/

theorem hushes_perform (hsubscriptions : w.subscriptions = #[]) (hpasses : task.passes = true)
    (hop : ∀ op, task = .operate op → op.Answers) : w.tree.Hushes (w.perform task).tree := by
  have hsame : ∀ {t : ScopeTree}, t = w.tree → w.tree.Hushes t := by
    rintro t rfl
    exact .refl _
  have hwrite : ∀ s x v, w.tree.Hushes (w.write s x v).tree := by
    intro s x v
    have hwritten := w.tree.hushes_write s x v
    unfold write
    simp only
    split <;> exact hwritten
  cases task with
  | operate op =>
    cases op with
    | answer | next | reply =>
      refine hsame ?_
      unfold perform operate
      simp only
      repeat' split
      all_goals first | rfl | exact tree_answerCommand ..
    | unreadable e => exact .refl _
    | _ => exact (hop _ rfl).elim
  | notifyReaders s readers =>
    unfold perform
    cases readers with
    | nil => exact .refl _
    | cons r rest =>
      simp only
      split <;> exact .refl _
  | notifyDefinition s x =>
    unfold perform
    simp only
    split <;> exact .refl _
  | tell l v =>
    show w.tree.Hushes (w.tell v l).tree
    unfold tell
    cases l with
    | importer s name =>
      simp only
      split
      · exact w.tree.hushes_setImported s name v
      · exact .refl _
    | input c name =>
      simp only
      repeat' split
      all_goals exact .refl _
    | client n =>
      rw [hsubscriptions]
      exact .refl _
  | write s x v => exact hwrite s x v
  | cancel id =>
    unfold perform
    simp only
    split <;> exact .refl _
  | cell c driven =>
    cases hcell : w.cell? c with
    | none =>
      rw [perform_cell_of_none hcell]
      exact .refl _
    | some cell =>
      rw [perform_cell hcell]
      cases driven with
      | refresh | invalidate | evaluate => exact .refl _
      | reconsider =>
        unfold performCell
        simp only
        split <;> exact .refl _
      | advance generation => exact hsame (tree_advance ..)
      | _ => cases hpasses
  | releaseScope | releaseCell => exact .refl _
  | _ => cases hpasses

/-- What passes on values leaves the cells where they are, and takes them through their runs. -/
theorem proceeds_perform (hsubscriptions : w.subscriptions = #[]) (hprompt : w.backend.Prompt)
    (hpasses : task.passes = true) (hop : ∀ op, task = .operate op → op.Answers) :
    w.Proceeds (w.perform task) where
  cells {c cell'} hcell' := by
    obtain ⟨cell, hcell, hpost⟩ := samePost_perform (Task.rank_of_passes hpasses)
      (fun op heq => (hop op heq).enlists) hcell'
    have hmakes : ¬w.Makes c task := by
      rintro ⟨-, position, expression, scope, automatic, rfl⟩
      exact hop _ rfl
    have hkept : ∀ {new : Cell}, new.SamePost cell → new.suspended = cell.suspended →
        new.generation = cell.generation → new.plan = cell.plan → cell.Proceeds new :=
      fun hpost hsuspended hgeneration hplan => ⟨hpost, hsuspended, hgeneration.ge,
        fun _ plan' heq => ⟨plan', hplan.symm.trans heq, le_refl _⟩⟩
    refine ⟨cell, hcell, ?_⟩
    cases perform_alters hcell hmakes hcell' with
    | same | told | rest | send | drop => exact hkept hpost rfl rfl rfl
    | invalidate => exact ⟨hpost, rfl, Nat.le_succ _, fun _ _ heq => by cases heq⟩
    | evaluate =>
      refine ⟨hpost, (cell.begin_batch _).1, ?_, fun heq => ?_⟩
      · rw [(cell.begin_run _).1]
        exact Nat.le_succ _
      · rw [(cell.begin_run _).1] at heq
        exact absurd heq (Nat.succ_ne_self _)
    | finish | fail => exact ⟨hpost, rfl, Nat.le_refl _, fun _ _ heq => by cases heq⟩
    | @assign plan target value hplan =>
      refine ⟨hpost, rfl, Nat.le_refl _, fun _ _ heq => ⟨plan, hplan, ?_⟩⟩
      cases heq
      exact plan.length_complete_le cell.expression value
    | @answer op plan value _ hplan =>
      refine ⟨hpost, rfl, Nat.le_refl _, fun _ _ heq => ⟨plan, hplan, ?_⟩⟩
      cases heq
      exact plan.length_complete_le cell.expression value
    | enter | synchronize | keepOutput | addInput | endBatch => cases hpasses
    | unregister | edit | move | automate => exact (hop _ rfl).elim
  present hcell := cell?_perform_ne_none hsubscriptions hprompt hcell
  hushes := hushes_perform hsubscriptions hpasses hop

end Workspace

end MathCanvas
