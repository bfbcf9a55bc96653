import MathCanvas.Document.Edit
import MathCanvas.Proofs.Workspace.Places

/-!
# What a client can get a document to

A client makes *edits* of a document, each when nothing is in progress, and some condition says
which edits it may make (`Document.Reached`). An edit performs operations of a few kinds
(`Op.InDocument`); while they are performed, the workspace of the document stays in order and the
scopes of the regions stay where they are (`Workspace.Tends`, `Document.tends_run`).
-/

namespace MathCanvas

/-- Whether an operation is one of those that edits consist of. -/
def Op.InDocument : Op → Prop
  | .newCell .. | .setScope .. | .setExpression .. | .setPosition .. | .setAutomatic ..
  | .recalculate _ | .recalculateStale _ | .dropCell _ => True
  | op => op.Answers

theorem Op.Answers.inDocument {op : Op} (h : op.Answers) : op.InDocument := by
  cases op <;> first | exact h | exact h.elim

theorem Op.InDocument.not_subscribes {op : Op} (h : op.InDocument) : ¬op.Subscribes := by
  cases op <;> first | exact id | exact fun _ => h

theorem Op.InDocument.not_houses {op : Op} (h : op.InDocument) : ¬op.Houses := by
  cases op <;> first | exact id | exact fun _ => h

namespace Workspace

variable {w w' : Workspace} {held : List ScopeId} {t : ScopeTree}

/-- A workspace in which edits of a document are performed. The scopes that the document holds are
where they are in a given tree. -/
structure Tends (held : List ScopeId) (t : ScopeTree) (w : Workspace) : Prop where
  ready : w.Ready
  closed : w.Closed
  heldScopes : w.heldScopes = held
  shape : ∀ s ∈ held, w.tree.shape? s = t.shape? s
  operations : ∀ op, .operate op ∈ w.agenda → op.InDocument
  numbered : ∀ {c : CellId} {cell : Cell}, w.cell? c = some cell → c < w.nextCell

theorem Tends.step {task : Task} {rest : List Task} (h : w.Tends held t)
    (hagenda : w.agenda = task :: rest) :
    (({ w with agenda := rest } : Workspace).perform task).sweep.Tends held t := by
  have hop : ∀ op, task = .operate op → op.InDocument := by
    rintro op rfl
    exact h.operations op (by rw [hagenda]; exact List.mem_cons_self)
  have hclosed : ({ w with agenda := rest } : Workspace).Closed :=
    ⟨h.closed.subscriptions, h.closed.answering⟩
  have hresponds := (perform_responds hclosed fun op heq => (hop op heq).not_subscribes).sweep
  have hkeeps := perform_keepsScopes (w := { w with agenda := rest }) fun op heq =>
    (hop op heq).not_houses
  have hheld := hkeeps.heldScopes.trans h.heldScopes
  have hready := h.ready.perform hagenda
  refine ⟨hready.swept (swept_sweep hready.tied) hready.tied, hclosed.responds hresponds,
    (heldScopes_sweep _).trans hheld, fun s hs => ?_, fun op hmem => ?_,
    sweep_numbered (perform_numbered (w := { w with agenda := rest }) h.numbered task)⟩
  · rw [shape?_sweep (hheld ▸ hs), hkeeps.shape.shape?_eq]
    exact h.shape s hs
  · obtain ⟨tasks, htasks, hanswers⟩ := hresponds.agenda
    rw [htasks] at hmem
    rcases List.mem_append.mp hmem with hmem | hmem
    · exact (hanswers op hmem).inDocument
    · exact h.operations op (by rw [hagenda]; exact List.mem_cons_of_mem _ hmem)

/-- What every step keeps is kept until all is done. -/
theorem settle_keeps {P : Workspace → Prop}
    (hstep : ∀ w task rest, P w → w.agenda = task :: rest →
      P (({ w with agenda := rest } : Workspace).perform task).sweep) (limit : Nat) :
    ∀ {w : Workspace}, P w → P (w.settle limit) := by
  induction limit with
  | zero =>
    intro w h
    rwa [settle]
  | succ limit ih =>
    intro w h
    cases hagenda : w.agenda with
    | nil =>
      rwa [settle_of_quiet hagenda]
    | cons task rest =>
      rw [settle_succ hagenda, step_of_agenda hagenda]
      exact ih (hstep w task rest h hagenda)

theorem Tends.settle (h : w.Tends held t) (limit : Nat) : (w.settle limit).Tends held t :=
  settle_keeps (fun _ _ _ hw hagenda => hw.step hagenda) limit h

theorem Tends.sweep (h : w.Tends held t) : w.sweep.Tends held t := by
  have hresponds := (Responds.refl w).sweep
  refine ⟨h.ready.swept (swept_sweep h.ready.tied) h.ready.tied, h.closed.responds hresponds,
    (heldScopes_sweep _).trans h.heldScopes, fun s hs => ?_, ?_, sweep_numbered h.numbered⟩
  · rw [shape?_sweep (h.heldScopes ▸ hs)]
    exact h.shape s hs
  · rw [sweep_agenda]
    exact h.operations

/-- Operations that the client calls when nothing is in progress. -/
theorem Tends.call (h : w.Tends held t) (hquiet : w.agenda = []) {ops : List Op}
    (hops : ∀ op ∈ ops, op.InDocument) :
    (({ w with history := [] } : Workspace).push (ops.map .operate)).Tends held t := by
  cases h.ready with
  | resting hcoherent =>
    have hhistory : ({ w with history := [] } : Workspace).Coherent fun _ _ => False :=
      hcoherent.of_same rfl rfl rfl rfl rfl
    refine ⟨.resting (hhistory.push (safe_operate ops)), ⟨h.closed.subscriptions, h.closed.answering⟩,
      h.heldScopes, h.shape, fun op hmem => ?_, h.numbered⟩
    rw [push, hquiet, List.append_nil] at hmem
    obtain ⟨called, hcalled, heq⟩ := List.mem_map.mp hmem
    cases heq
    exact hops _ hcalled
  | telling hagenda =>
    rw [hagenda] at hquiet
    cases hquiet

end Workspace

namespace Document

/-- What a client does with a document, or a backend that answers it. -/
inductive Edit where
  | createCell (position : Position) (expression : Expr)
  | setExpression (cell : Key) (expression : Expr)
  | moveCell (cell : Key) (position : Position)
  | deleteCell (cell : Key)
  | setCellSize (cell : Key) (size : Size)
  | recalculateCell (cell : Key)
  | recalculate
  | setCalculationMode (mode : CalculationMode)
  | createRegion (name : String) (start stop : Position) (closed : Bool)
  | deleteRegion (region : Key)
  | answer (op : Op) (answers : op.Answers)

/-- The document after an edit; one that is refused changes nothing. -/
def edit (d : Document) : Edit → Document
  | .createCell p e => (d.createCell p e).2
  | .setExpression cell e => (d.setExpression cell e).toOption.getD d
  | .moveCell cell p => (d.moveCell cell p).toOption.getD d
  | .deleteCell cell => (d.deleteCell cell).toOption.getD d
  | .setCellSize cell size => (d.setCellSize cell size).toOption.getD d
  | .recalculateCell cell => (d.recalculateCell cell).toOption.getD d
  | .recalculate => d.recalculate
  | .setCalculationMode mode => d.setCalculationMode mode
  | .createRegion name start stop closed =>
    ((d.createRegion name start stop closed).toOption.map (·.2)).getD d
  | .deleteRegion region => (d.deleteRegion region).toOption.getD d
  | .answer op _ => { d with workspace := (d.workspace.apply op).2 }

/-- The documents that a client can get to by edits that it may make. An edit begins when nothing is
in progress. -/
inductive Reached (settings : DocumentSettings) (backend : Backend)
    (may : Document → Edit → Prop) : Document → Prop
  | new : Reached settings backend may (.new settings backend)
  | edit {d : Document} (e : Edit) : Reached settings backend may d → d.workspace.agenda = [] →
      may d e → Reached settings backend may (d.edit e)

variable {d : Document} {settings : DocumentSettings} {backend : Backend}
  {may may' : Document → Edit → Prop}

theorem Reached.mono (h : Reached settings backend may d) (hmay : ∀ d e, may d e → may' d e) :
    Reached settings backend may' d := by
  induction h with
  | new => exact .new
  | edit e _ hquiet hd ih => exact .edit e ih hquiet (hmay _ e hd)

/-- While operations are performed, the scopes of a document stay where they are. -/
theorem tends_run {held : List ScopeId} {t : ScopeTree} (h : d.workspace.Tends held t)
    (hquiet : d.workspace.agenda = []) {ops : List Op} (hops : ∀ op ∈ ops, op.InDocument) :
    (d.run ops).workspace.Tends held t :=
  (h.call hquiet hops).sweep.settle _

theorem tends_apply {held : List ScopeId} {t : ScopeTree} (h : d.workspace.Tends held t)
    (hquiet : d.workspace.agenda = []) {op : Op} (hop : op.InDocument) :
    (d.workspace.apply op).2.Tends held t := by
  have hcall : d.workspace.call op
      = ({ d.workspace with history := [] } : Workspace).push ([op].map .operate) := by
    rw [Workspace.push, hquiet]
    rfl
  rw [Workspace.apply_eq_settle hquiet, hcall]
  exact (h.call hquiet (by simpa using hop)).settle _

/-- A condition on the workspaces of a document in progress that is kept by steps holds after the
operations if it holds when they are called. -/
theorem run_keeps {P : Workspace → Prop} {ops : List Op}
    (hcall : P (({ d.workspace with history := [] } : Workspace).push (ops.map .operate)).sweep)
    (hstep : ∀ w task rest, P w → w.agenda = task :: rest →
      P (({ w with agenda := rest } : Workspace).perform task).sweep) :
    P (d.run ops).workspace :=
  Workspace.settle_keeps hstep _ hcall

end Document

end MathCanvas
