import MathCanvas.Proofs.Document.Enlisted
import MathCanvas.Proofs.Document.Homing
import MathCanvas.Proofs.Document.Renewal

/-!
# What an edit of the regions leaves alone

When a region comes or goes, every cell is brought to the scope that it belongs to then. A cell that is
there already is passed over, and all that happens for the sake of the others leaves it enrolled as it
is: no task on the agenda is ever about its inputs and outputs (`Task.Spares`, `Workspace.Spared`).
-/

namespace MathCanvas

variable {c c' : CellId} {cell cell' : Cell} {task : Task} {tasks : List Task} {driven : CellTask}
  {scope : Option ScopeId}

/-- Whether an operation leaves a cell in the scope in which it is, and all others where they are. -/
def Op.Spares (c : CellId) (scope : Option ScopeId) (op : Op) : Prop :=
  op.Answers ∨ ∃ c' target, op = .setScope c' target ∧ (c' = c → target = scope)

/-- Whether a task leaves what a cell has as it is. -/
structure Task.Spares (c : CellId) (cell : Cell) (task : Task) : Prop where
  driven : ∀ {driven : CellTask}, task = .cell c driven → task.rank = .idle
  moving : ∀ {k : Role} {s : ScopeId} {x : Nat} {y : Position} {name : String},
    task = k.moving s x y → ¬cell.Has name s x k
  operation : ∀ {op : Op}, task = .operate op → op.Spares c cell.scope

namespace Task

theorem Spares.of_idle (hidle : task.rank = .idle) (hop : ∀ op, task = .operate op → op.Answers) :
    task.Spares c cell where
  driven _ := hidle
  moving := by
    rintro k s x y name rfl
    simp at hidle
  operation heq := Or.inl (hop _ heq)

theorem Spares.of_cell (hne : c' ≠ c) (driven : CellTask) : (Task.cell c' driven).Spares c cell where
  driven heq := absurd (Task.cell.inj heq).1 hne
  moving := by rintro (_ | _) s x y name ⟨⟩
  operation := by rintro op ⟨⟩

theorem Spares.of_removing {k : Role} {s : ScopeId} {x : Nat} : (k.removing s x).Spares c cell where
  driven := by cases k <;> rintro driven ⟨⟩
  moving heq := absurd heq.symm Role.moving_ne_removing
  operation := by cases k <;> rintro op ⟨⟩

/-- What another cell has may move. -/
theorem Spares.of_moving {k : Role} {s : ScopeId} {x : Nat} {y : Position}
    (hother : ∀ name, ¬cell.Has name s x k) : (k.moving s x y).Spares c cell where
  driven := by cases k <;> rintro driven ⟨⟩
  moving heq := by
    obtain ⟨rfl, rfl, rfl, -⟩ := Role.moving_inj.mp heq
    exact hother _
  operation := by cases k <;> rintro op ⟨⟩

/-- A task that is idle and that no answer is, arranges nothing. -/
theorem arranges_of_idle (hidle : task.rank = .idle) (hop : ∀ op, task = .operate op → op.Answers) :
    task.arranges = false := by
  cases task with
  | operate op => exact (hop op rfl).arranges
  | cell c driven => cases driven <;> first | rfl | cases hidle
  | moveDefinition | removeDefinition => cases hidle
  | _ => rfl

end Task

namespace Workspace

variable {w w' : Workspace} {s : ScopeId} {name : String} {x : Nat} {k : Role} {op : Op}
  {ops : List Op}

/-- A cell that has what it had at some time, and that all tasks spare. -/
structure Spared (w : Workspace) (c : CellId) (cell : Cell) (agenda : List Task) : Prop where
  held : c ∈ w.heldCells
  post : ∃ now, w.cell? c = some now ∧ now.SamePost cell
  tasks : ∀ task ∈ agenda, task.Spares c cell

theorem cell?_putCell_of_ne (w : Workspace) (hne : c' ≠ c) (new : Cell) :
    (w.putCell c' new).cell? c = w.cell? c := lookup_insert_of_ne _ _ hne

namespace Spared

/-- The cell is not touched, and new tasks are idle or spare it. -/
theorem extend (h : w.Spared c cell (task :: w.agenda)) (hresponds : w.Responds w')
    (hheld : w'.heldCells = w.heldCells) (hcell : w'.cell? c = w.cell? c)
    (hagenda : w'.agenda = tasks ++ w.agenda)
    (hnew : ∀ later ∈ tasks, later.rank ≠ .idle → later.Spares c cell) :
    w'.Spared c cell w'.agenda where
  held := hheld ▸ h.held
  post := hcell ▸ h.post
  tasks later hmem := by
    obtain ⟨answers, hanswers, hop⟩ := hresponds.agenda
    cases List.append_cancel_right (hagenda.symm.trans hanswers)
    rw [hagenda] at hmem
    rcases List.mem_append.mp hmem with hmem | hmem
    · by_cases hidle : later.rank = .idle
      · exact .of_idle hidle fun op heq => hop op (heq ▸ hmem)
      · exact hnew later hmem hidle
    · exact h.tasks later (List.mem_cons_of_mem _ hmem)

/-- Neither is the cell touched, nor is a task new. -/
theorem keep (h : w.Spared c cell (task :: w.agenda)) (hheld : w'.heldCells = w.heldCells)
    (hcell : w'.cell? c = w.cell? c) (hagenda : w'.agenda = w.agenda) :
    w'.Spared c cell w'.agenda where
  held := hheld ▸ h.held
  post := hcell ▸ h.post
  tasks later hmem := h.tasks later (List.mem_cons_of_mem _ (hagenda ▸ hmem))

theorem pop (h : w.Spared c cell (task :: w.agenda)) : w.Spared c cell w.agenda :=
  h.keep rfl rfl rfl

theorem idle (h : w.Spared c cell (task :: w.agenda)) (hclosed : w.Closed) (htied : w.tree.WellTied)
    (hidle : task.rank = .idle) (hop : ∀ op, task = .operate op → op.Answers) :
    (w.perform task).Spared c cell (w.perform task).agenda := by
  have hrests := perform_rests htied hidle fun op heq => (hop op heq).enlists
  have habides := perform_abides hclosed htied.allConsistent (Task.arranges_of_idle hidle hop)
    fun op heq => (hop op heq).inDocument
  have hresponds := perform_responds hclosed fun op heq => (hop op heq).not_subscribes
  obtain ⟨now, hnow, hpost⟩ := h.post
  obtain ⟨after, hafter⟩ := habides.held h.held hnow
  obtain ⟨before, hbefore, hsame⟩ := samePost_perform hidle (fun op heq => (hop op heq).enlists) hafter
  cases hnow.symm.trans hbefore
  obtain ⟨tasks, hagenda, htasks⟩ := hresponds.agenda
  obtain ⟨more, hmore, hidles⟩ := hrests.agenda
  cases List.append_cancel_right (hagenda.symm.trans hmore)
  refine ⟨habides.heldCells ▸ h.held, ⟨after, hafter, hsame.trans hpost⟩, fun later hmem => ?_⟩
  rw [hagenda] at hmem
  rcases List.mem_append.mp hmem with hmem | hmem
  · exact .of_idle (hidles later hmem) fun op heq => htasks op (heq ▸ hmem)
  · exact h.tasks later (List.mem_cons_of_mem _ hmem)

/-- Another cell is enrolled. -/
theorem performCell (h : w.Spared c cell (.cell c' driven :: w.agenda)) (hclosed : w.Closed)
    (hapart : ∀ {name n s x k}, cell'.Has n s x k → cell.Has name s x k → c' = c)
    (hne : c' ≠ c) (hcell' : w.cell? c' = some cell') (hrank : (Task.cell c' driven).rank ≠ .idle) :
    (w.performCell c' cell' driven).Spared c cell (w.performCell c' cell' driven).agenda := by
  have hresponds : w.Responds (w.perform (.cell c' driven)) :=
    perform_responds hclosed (by rintro op ⟨⟩)
  rw [perform_cell hcell'] at hresponds
  cases driven with
  | enter scope =>
    refine h.extend hresponds rfl (w.cell?_putCell_of_ne hne _) rfl fun later hmem _ => ?_
    simp only [List.mem_cons, List.not_mem_nil, or_false] at hmem
    rcases hmem with rfl | rfl <;> exact .of_cell hne _
  | synchronize =>
    unfold Workspace.performCell at hresponds ⊢
    simp only at hresponds ⊢
    split
    · exact h.pop
    · rename_i s hscope
      simp only [hscope] at hresponds
      obtain ⟨tasks, heq, -, -, htasks⟩ := w.synchronize_spec c' cell' s
      rw [heq] at hresponds ⊢
      refine h.extend hresponds rfl (w.cell?_putCell_of_ne hne _) rfl fun later hmem hidle => ?_
      cases (htasks later hidle).mp hmem with
      | remove => exact .of_removing
      | move has => exact .of_moving fun name hx => hne (hapart has hx)
      | @add k => cases k <;> exact .of_cell hne _
  | addOutput s name y =>
    unfold Workspace.performCell at hresponds ⊢
    simp only at hresponds ⊢
    split
    · exact h.pop
    split
    · exact h.pop
    · rename_i hmissing _ slot readers tree hadd
      rw [if_neg hmissing, hadd] at hresponds
      refine h.extend hresponds rfl rfl rfl fun later hmem hidle => ?_
      simp only [List.mem_cons, List.not_mem_nil, or_false] at hmem
      rcases hmem with rfl | rfl
      · exact absurd rfl hidle
      · exact .of_cell hne _
  | keepOutput s name slot => exact h.keep rfl (w.cell?_putCell_of_ne hne _) rfl
  | addInput s name y =>
    unfold Workspace.performCell
    simp only
    split
    · exact h.pop
    split
    · exact h.pop
    · exact h.keep rfl (w.cell?_putCell_of_ne hne _) rfl
  | _ => exact absurd rfl hrank

/-- A cell goes to the scope that it belongs to, if it is not there yet. -/
theorem setScope {target : Option ScopeId}
    (h : w.Spared c cell (.operate (.setScope c' target) :: w.agenda)) (hclosed : w.Closed)
    (htarget : c' = c → target = cell.scope) :
    (w.perform (.operate (.setScope c' target))).Spared c cell
      (w.perform (.operate (.setScope c' target))).agenda := by
  have hresponds : w.Responds (w.perform (.operate (.setScope c' target))) :=
    perform_responds hclosed (by rintro op ⟨⟩ ⟨⟩)
  unfold perform operate Workspace.onHeldCell onCell at hresponds ⊢
  simp only at hresponds ⊢
  split
  swap
  · exact h.pop
  split
  swap
  · exact h.pop
  rename_i before hbefore
  split
  swap
  · exact h.pop
  rename_i hheld _ hhouses
  by_cases hscope : before.scope = target
  · rw [Workspace.setScope, if_pos hscope]
    exact h.pop
  have hne : c' ≠ c := by
    rintro rfl
    obtain ⟨now, hnow, hpost⟩ := h.post
    cases hnow.symm.trans hbefore
    exact hscope (hpost.scope.trans (htarget rfl).symm)
  rw [if_pos hheld, hbefore] at hresponds
  simp only [if_pos hhouses] at hresponds
  obtain ⟨tasks, heq, -, htasks⟩ := w.setScope_spec c' before hscope
  rw [heq] at hresponds ⊢
  refine h.extend hresponds rfl (w.cell?_putCell_of_ne hne _) rfl fun later hmem hidle => ?_
  cases (htasks later hidle).mp hmem with
  | remove => exact .of_removing
  | enter => exact .of_cell hne _

/-- Every task that spares a cell sets off tasks that do. -/
theorem perform (h : w.Spared c cell (task :: w.agenda)) (hclosed : w.Closed)
    (htied : w.tree.WellTied)
    (hapart : ∀ {c' cell' name n s x k}, w.cell? c' = some cell' → cell'.Has n s x k →
      cell.Has name s x k → c' = c) :
    (w.perform task).Spared c cell (w.perform task).agenda := by
  have hspares := h.tasks task List.mem_cons_self
  have hspread : ∀ (s : ScopeId) (result : List ReaderId × ScopeTree),
      (w.spread s result).Spared c cell (w.spread s result).agenda := by
    refine fun s result =>
      h.extend ((Responds.refl w).spread s result) rfl rfl rfl fun later hmem hidle => ?_
    simp only [noticeTasks, List.mem_cons, List.not_mem_nil, or_false] at hmem
    rcases hmem with rfl | rfl <;> exact absurd rfl hidle
  cases task with
  | operate op =>
    rcases hspares.operation rfl with hanswers | ⟨c', target, rfl, htarget⟩
    · exact h.idle hclosed htied rfl fun op' heq => (Task.operate.inj heq) ▸ hanswers
    · exact h.setScope hclosed htarget
  | moveDefinition | moveReader | removeDefinition | removeReader =>
    exact hspread _ _
  | keepDefinition s slot name =>
    exact h.keep rfl rfl rfl
  | cell c' driven =>
    by_cases hidle : (Task.cell c' driven).rank = .idle
    · exact h.idle hclosed htied hidle (by rintro op ⟨⟩)
    have hne : c' ≠ c := by
      rintro rfl
      exact hidle (hspares.driven rfl)
    cases hcell' : w.cell? c' with
    | none =>
      rw [perform_cell_of_none hcell']
      exact h.pop
    | some cell' =>
      rw [perform_cell hcell']
      exact h.performCell hclosed (hapart hcell') hne hcell' hidle
  | _ => exact h.idle hclosed htied rfl (by rintro op ⟨⟩)

/-- A step of a workspace in which cells are enrolled. -/
theorem step (h : w.Spared c cell w.agenda) (henlisted : w.Enlisted) (hbusy : w.agenda ≠ []) :
    w.step.Spared c cell w.step.agenda := by
  obtain ⟨task, rest, hagenda⟩ := List.exists_cons_of_ne_nil hbusy
  have hpopped : ({ w with agenda := rest } : Workspace).Spared c cell (task :: rest) :=
    ⟨h.held, h.post, hagenda ▸ h.tasks⟩
  have hperformed := hpopped.perform ⟨henlisted.closed.subscriptions, henlisted.closed.answering⟩
    henlisted.ready.tied fun hcell' hx' hx => by
      obtain ⟨now, hnow, hpost⟩ := h.post
      exact henlisted.posted.owner_eq henlisted.apportioned hcell' hnow hx' (hpost.has_iff.mpr hx)
  rw [step_of_agenda hagenda]
  generalize ({ w with agenda := rest } : Workspace).perform task = v at hperformed ⊢
  obtain ⟨now, hnow, hpost⟩ := hperformed.post
  have hstays := cell?_sweep_of_held hperformed.held hnow
  obtain ⟨cells, tree, hsweep, -⟩ := v.exists_sweep_eq
  refine ⟨?_, ⟨now, hstays, hpost⟩, by rw [sweep_agenda]; exact hperformed.tasks⟩
  rw [hsweep]
  exact hperformed.held

theorem call (h : w.Spared c cell w.agenda) (hop : op.Spares c cell.scope) :
    (w.call op).Spared c cell (w.call op).agenda where
  held := h.held
  post := h.post
  tasks := by
    intro task hmem
    obtain rfl := List.mem_singleton.mp hmem
    exact ⟨by rintro driven ⟨⟩, by rintro (_ | _) s x y name ⟨⟩, by rintro op ⟨⟩; exact hop⟩

/-- What a cell that is spared has stays enrolled where it was. -/
theorem enrolled (h : w.Spared c cell w.agenda) (hposted : w.Posted w.agenda)
    (hx : cell.Has name s x k) : w.tree.Enrolled s x name (cell.stand name k) k := by
  obtain ⟨now, hnow, hpost⟩ := h.post
  have hstand : now.stand name k = cell.stand name k := by
    cases k with
    | definition => exact hpost.position
    | reader => rw [Cell.stand, Cell.stand, hpost.position, hpost.outputs]
  have hstill : ¬Awaits w.agenda c s x k := by
    rintro (hmem | ⟨y, hmem⟩)
    · cases (h.tasks _ hmem).driven rfl
    · exact (h.tasks _ hmem).moving rfl hx
  have houtputs : ∀ task ∈ w.agenda, task.output? ≠ some (c, name) := by
    intro task hmem houtput
    cases task with
    | cell c' driven =>
      have hrank := Task.rank_ne_idle_of_output? houtput
      cases driven with
      | addOutput | keepOutput =>
        obtain ⟨rfl, -⟩ := Prod.mk.inj (Option.some.inj houtput)
        exact hrank ((h.tasks _ hmem).driven rfl)
      | _ => cases houtput
    | _ => cases houtput
  exact hstand ▸ (hposted.enrolled_of_still hnow (hpost.has_iff.mpr hx) hstill houtputs).2

end Spared

end Workspace

namespace Document

open Workspace Region

variable {d d' : Document} {settings : DocumentSettings} {backend : Backend}
  {may : Document → Edit → Prop} {e : Edit}

/-- What an edit of the regions leaves as it was. -/
structure Undisturbed (d : Document) (e : Edit) (d' : Document) : Prop where
  /-- A region that stays keeps its scope if and only if the regions around it are what they were. -/
  regions : ∀ r ∈ d.regions, ∀ r' ∈ d'.regions, r'.id = r.id →
    (r'.scope = r.scope ↔ lineage d'.regions r' = lineage d.regions r)
  /-- The edit is performed step by step. -/
  workspace : d'.workspace = (d.launch e).settle taskLimit
  /-- After any number of steps, a cell that goes to no other scope is in its scope with the inputs and
  outputs that it had, and they are enrolled where they were. -/
  cells : ∀ entry ∈ d.entries,
    d'.scopeAt (d.positionOf entry.cell) = d.scopeAt (d.positionOf entry.cell) →
    ∃ cell, d.workspace.cell? entry.cell = some cell ∧
      (∀ name s x k, cell.Has name s x k →
        d.workspace.tree.Enrolled s x name (cell.stand name k) k) ∧
      ∀ n, (∃ now, ((d.launch e).settle n).cell? entry.cell = some now ∧ now.SamePost cell) ∧
        ∀ name s x k, cell.Has name s x k →
          ((d.launch e).settle n).tree.Enrolled s x name (cell.stand name k) k

end Document

end MathCanvas
