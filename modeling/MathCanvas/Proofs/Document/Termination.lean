import MathCanvas.Proofs.Document.Dependencies
import MathCanvas.Proofs.Document.Listing
import MathCanvas.Proofs.Document.Onset

/-!
# Edits come to an end

An edit calls a few operations, one when the cascade of the one before is over. Of these only the
first one puts a cell somewhere (`Workspace.Cascades`), so that each of them finds the cells in
different places. As every cascade comes to an end, the edit does, and on the way no cell takes
notice of a value while a refresh of it is in progress (`Document.Reached.launch_terminates`).
-/

namespace MathCanvas

/-- Whether an operation puts a cell somewhere. -/
def Op.Places : Op → Prop
  | .newCell .. | .setPosition .. => True
  | _ => False

/-- The input of a cell that a task tells of a value. -/
def Task.input? : Task → Option (CellId × String)
  | .tell (.input c name) _ => some (c, name)
  | _ => none

namespace Workspace

variable {w : Workspace} {g : Grading} {heights : List Height} {backend : Backend} {op : Op}
  {ops : List Op}

theorem roomFor_of_not_places (h : ¬op.Places) : w.RoomFor op := by
  cases op with
  | newCell | setPosition => exact absurd trivial h
  | _ => trivial

/-- There is room as long as the cells stay where they are. -/
theorem RoomFor.stay {w' : Workspace} (h : w.RoomFor op) (hcells : ∀ {c : CellId} {cell' : Cell},
    w'.cell? c = some cell' → ∃ cell, w.cell? c = some cell ∧ cell'.position = cell.position) :
    w'.RoomFor op := by
  cases op with
  | newCell p e s automatic =>
    refine ⟨h.1, fun c cell' hcell' => ?_⟩
    obtain ⟨cell, hcell, hposition⟩ := hcells hcell'
    rw [hposition]
    exact h.2 c cell hcell
  | setPosition c p =>
    refine ⟨h.1, fun c' cell' hcell' hne => ?_⟩
    obtain ⟨cell, hcell, hposition⟩ := hcells hcell'
    rw [hposition]
    exact h.2 c' cell hcell hne
  | _ => trivial

/-- A cascade, and the operations that are called after it. -/
structure Cascades (w : Workspace) (ops : List Op) : Prop where
  cascading : w.Cascading
  exists_cascade : ∃ g heights, w.Cascade g heights w.agenda
  edits : ∀ op ∈ ops, op.InDocument ∧ ¬op.Answers
  room : ∀ op ∈ ops, w.RoomFor op
  placed : ∀ op ∈ ops.tail, ¬op.Places

/-- The cascade goes on, and is lower. -/
theorem Cascades.step {task : Task} {rest : List Task} (h : w.Cascades ops)
    (hagenda : w.agenda = task :: rest) (hcascade : w.Cascade g heights w.agenda) :
    w.step.Cascades ops ∧
      ∃ g' heights', w.step.Cascade g' heights' w.step.agenda ∧ Lowers heights' heights := by
  obtain ⟨hstep, g', heights', hcascade', hlowers⟩ :=
    h.cascading.exists_cascade_step hagenda hcascade
  refine ⟨⟨hstep, ⟨g', heights', hcascade'⟩, h.edits, fun op hop => ?_, h.placed⟩, g', heights',
    hcascade', hlowers⟩
  exact (h.room op hop).stay fun hcell' => position_step hagenda (hcascade.answers hagenda) hcell'

/-- The cascade of the next operation begins. -/
theorem Cascades.call (h : w.Cascades (op :: ops)) (hquiet : w.agenda = []) :
    (w.call op).step.Cascades ops := by
  obtain ⟨hop, hanswers⟩ := h.edits op List.mem_cons_self
  obtain ⟨hcascading, hcascade⟩ :=
    h.cascading.call hquiet hop hanswers (h.room op List.mem_cons_self)
  exact ⟨hcascading, hcascade, fun op' hop' => h.edits op' (List.mem_cons_of_mem _ hop'),
    fun op' hop' => roomFor_of_not_places (h.placed op' hop'),
    fun op' hop' => h.placed op' (List.mem_of_mem_tail hop')⟩

/-- A cascade comes to an end, before the next operation begins. -/
theorem Cascades.exists_quiet (h : w.Cascades ops) (past : List Event) :
    ∃ (n : Nat) (v : Workspace),
    (∀ m, (w.within past (ops.map .operate)).settle (n + m) =
      (v.within past (ops.map .operate)).settle m) ∧ v.agenda = [] ∧ v.Cascades ops := by
  have hwf : WellFounded Lowers :=
    InvImage.wf (fun heights : List Height => (heights : Multiset Height))
      (WellFounded.cutExpand wellFounded_lt)
  obtain ⟨g, heights, hcascade⟩ := h.exists_cascade
  -- by induction on how high the cascade is
  induction heights using hwf.induction generalizing w g with
  | _ heights ih =>
    cases hagenda : w.agenda with
    | nil => exact ⟨0, w, fun m => by rw [Nat.zero_add], hagenda, h⟩
    | cons task rest =>
      obtain ⟨hstep, g', heights', hcascade', hlowers⟩ := h.step hagenda hcascade
      obtain ⟨n, v, hsettle, hv⟩ := ih heights' hlowers hstep g' hcascade'
      refine ⟨n + 1, v, fun m => ?_, hv⟩
      have hbusy : (w.within past (ops.map .operate)).agenda
          = task :: (rest ++ ops.map .operate) := by
        rw [within, hagenda, List.cons_append]
      rw [Nat.add_right_comm, settle_succ hbusy, step_within (by rw [hagenda]; rintro ⟨⟩)]
      exact hsettle m

/-- One after the other, all cascades come to an end. -/
theorem Cascades.exists_settle (h : w.Cascades ops) (past : List Event) :
    ∃ n, ((w.within past (ops.map .operate)).settle n).agenda = [] := by
  induction ops generalizing w past with
  | nil =>
    obtain ⟨n, v, hsettle, hv, -⟩ := h.exists_quiet past
    refine ⟨n, ?_⟩
    rw [← Nat.add_zero n, hsettle 0, settle]
    simpa [within] using hv
  | cons op ops ih =>
    obtain ⟨n, v, hsettle, hv, hcascades⟩ := h.exists_quiet past
    obtain ⟨m, hm⟩ := ih (hcascades.call hv) (past ++ v.history)
    refine ⟨n + (m + 1), ?_⟩
    have hfirst : (v.within past ((op :: ops).map .operate)).agenda
        = .operate op :: ops.map .operate := by
      rw [within, hv]
      rfl
    rw [hsettle, settle_succ hfirst, step_within_of_quiet hv]
    exact hm

/-- The backend of a workspace stays what it is. -/
theorem Passage.backend_eq (h : Passage backend w) (hbackend : backend.Answering) :
    w.backend = backend := by
  induction h with
  | start => rfl
  | call op _ _ _ ih => exact ih
  | @step w hpassage hbusy ih =>
    obtain ⟨task, rest, hagenda⟩ := List.exists_cons_of_ne_nil hbusy
    have henlisted := hpassage.enlisted hbackend
    have hclosed : ({ w with agenda := rest } : Workspace).Closed :=
      ⟨henlisted.closed.subscriptions, henlisted.closed.answering⟩
    have hresponds : ({ w with agenda := rest } : Workspace).Responds
        (({ w with agenda := rest } : Workspace).perform task) := by
      refine perform_responds hclosed fun op heq => ?_
      exact (henlisted.operations op (by rw [hagenda, heq]; exact List.mem_cons_self)).1
    rw [step_of_agenda hagenda, hresponds.sweep.backend]
    exact ih
  | rehouse _ _ _ ih => exact ih

/-- When nothing is in progress, operations can be called. -/
theorem Passage.cascades (h : Passage backend w) (himmediate : backend.Immediate)
    (hquiet : w.agenda = []) (hspaced : w.Spaced) (hedits : ∀ op ∈ ops, op.InDocument ∧ ¬op.Answers)
    (hroom : ∀ op ∈ ops, w.RoomFor op) (hplaced : ∀ op ∈ ops.tail, ¬op.Places) :
    w.Cascades ops := by
  have hanswering := himmediate.prompt.answering
  have henlisted := h.enlisted hanswering
  refine ⟨⟨henlisted, h.secluded himmediate.prompt, ?_, hspaced⟩,
    exists_cascade_quiet henlisted.ready.tied hquiet, hedits, hroom, hplaced⟩
  rw [h.backend_eq hanswering]
  exact himmediate

end Workspace

namespace Document

open Workspace

variable {d d' : Document} {settings : DocumentSettings} {backend : Backend}
  {may : Document → Edit → Prop} {e : Edit} {ops : List Op}

/-- If an edit makes or moves a cell, no other cell stands where it is put, and there is a place
before it. -/
def RoomFor (d : Document) : Edit → Prop
  | .createCell p _ => p.Interior ∧ ∀ c ∈ d.cellIds, (d.positionOf c).same p = false
  | .moveCell key p => ∀ c, d.cell? key = some c →
    p.Interior ∧ ∀ c' ∈ d.cellIds, c' ≠ c → (d.positionOf c').same p = false
  | _ => True

/-- Of the operations of an edit only the first one puts a cell somewhere, and there is room for it.
-/
theorem roomFor_prepare {w : Workspace} (hprepare : d.prepare e = some (d', ops))
    (hroom : d.RoomFor e) (hcells : ∀ {c : CellId} {cell : Cell}, w.cell? c = some cell →
      c ∈ d.cellIds ∧ d.positionOf c = cell.position) :
    (∀ op ∈ ops, w.RoomFor op) ∧ ∀ op ∈ ops.tail, ¬op.Places := by
  have hstay : (∀ op ∈ ops, ¬op.Places) →
      (∀ op ∈ ops, w.RoomFor op) ∧ ∀ op ∈ ops.tail, ¬op.Places := fun h =>
    ⟨fun op hop => roomFor_of_not_places (h op hop),
      fun op hop => h op (List.mem_of_mem_tail hop)⟩
  have hhoming : ∀ d : Document, ∀ op ∈ d.homing, ¬op.Places := by
    intro d op hop
    obtain ⟨entry, -, rfl⟩ := List.mem_map.mp hop
    exact id
  cases e with
  | createCell p e =>
    cases hprepare
    refine ⟨fun op hop => ?_, by simp⟩
    obtain rfl := List.mem_singleton.mp hop
    refine ⟨hroom.1, fun c cell hcell => ?_⟩
    obtain ⟨hmem, hposition⟩ := hcells hcell
    rw [← hposition]
    exact hroom.2 c hmem
  | moveCell key p =>
    obtain ⟨c, hkey, hprepare⟩ := Option.bind_eq_some_iff.mp hprepare
    obtain ⟨entry, -, hprepare⟩ := Option.map_eq_some_iff.mp hprepare
    cases hprepare
    obtain ⟨hinterior, hapart⟩ := hroom c hkey
    refine ⟨fun op hop => ?_, by simp [Op.Places]⟩
    rcases List.mem_cons.mp hop with rfl | hop
    · refine ⟨hinterior, fun c' cell hcell hne => ?_⟩
      obtain ⟨hmem, hposition⟩ := hcells hcell
      rw [← hposition]
      exact hapart c' hmem hne
    · obtain rfl := List.mem_singleton.mp hop
      trivial
  | setExpression key e | deleteCell key | setCellSize key size | recalculateCell key =>
    obtain ⟨c, -, hprepare⟩ := Option.map_eq_some_iff.mp hprepare
    cases hprepare
    exact hstay (by simp [Op.Places])
  | recalculate | setCalculationMode mode =>
    cases hprepare
    exact hstay (by simp [Op.Places])
  | createRegion name start stop closed =>
    rw [prepare] at hprepare
    split at hprepare
    · cases hprepare
    · cases hprepare
      exact hstay (hhoming _)
  | deleteRegion key =>
    obtain ⟨region, -, hprepare⟩ := Option.map_eq_some_iff.mp hprepare
    cases hprepare
    exact hstay (hhoming _)
  | answer op answers => cases hprepare

/-- Every cell of a document at rest is listed, with its position. -/
theorem Reached.listed (h : Reached settings backend may d) (hbackend : backend.Answering)
    (hquiet : d.workspace.agenda = []) {c : CellId} {cell : Cell}
    (hcell : d.workspace.cell? c = some cell) : c ∈ d.cellIds ∧ d.positionOf c = cell.position :=
  ⟨h.mem_of_cell? hbackend hquiet c (by rw [hcell]; rintro ⟨⟩), by rw [positionOf, hcell]⟩

theorem Reached.spaced_workspace (h : Reached settings backend may d) (hbackend : backend.Answering)
    (hquiet : d.workspace.agenda = []) (hspaced : d.Spaced) : d.workspace.Spaced := by
  constructor
  · intro c c' cell cell' hcell hcell' hsame
    obtain ⟨hmem, hposition⟩ := h.listed hbackend hquiet hcell
    obtain ⟨hmem', hposition'⟩ := h.listed hbackend hquiet hcell'
    rw [← hposition, ← hposition'] at hsame
    exact hspaced.apart c hmem c' hmem' hsame
  · intro c cell hcell
    obtain ⟨hmem, hposition⟩ := h.listed hbackend hquiet hcell
    exact hposition ▸ hspaced.interior c hmem

section Launch

variable (h : Reached settings backend may d) (himmediate : backend.Immediate)
  (hquiet : d.workspace.agenda = []) (hspaced : d.Spaced)
  (hanswer : ∀ op answers, e ≠ .answer op answers) (hroom : d.RoomFor e)
include h himmediate hquiet hspaced hanswer hroom

/-- An edit launches cascades. -/
theorem Reached.exists_cascades : ∃ (w : Workspace) (past : List Event) (ops : List Op),
    d.launch e = w.within past (ops.map .operate) ∧ w.Cascades ops := by
  have hanswering := himmediate.prompt.answering
  have hplaces := h.spaced_workspace hanswering hquiet hspaced
  obtain ⟨w, past, hd, hpassage⟩ := h.exists_passage hanswering hquiet
  have hw : w.agenda = [] := by simpa [hd, within] using hquiet
  have hsame : ∀ c, d.workspace.cell? c = w.cell? c := fun c => by rw [hd]; rfl
  have hwplaces : w.Spaced := hplaces.of_positions fun {c cell} hcell =>
    ⟨cell, (hsame c).trans hcell, rfl⟩
  rw [launch_eq hanswer]
  cases hprepare : d.prepare e with
  | none =>
    exact ⟨w, past, [], hd, hpassage.cascades himmediate hw hwplaces (by simp) (by simp) (by simp)⟩
  | some called =>
    obtain ⟨d', ops⟩ := called
    obtain ⟨v, hd', hv, hvcells, hvpassage⟩ :=
      exists_passage_prepare hpassage hd (h.nested hanswering) hquiet hprepare
    obtain ⟨hrooms, hplaced⟩ :=
      roomFor_prepare hprepare hroom fun hcell => h.listed hanswering hquiet hcell
    -- the cells are those of the document
    let opened : Workspace := ({ v with history := [] } : Workspace).sweep
    have hstays : ∀ {c cell'}, opened.cell? c = some cell' →
        ∃ cell, d.workspace.cell? c = some cell ∧ cell'.position = cell.position := by
      intro c cell' hcell'
      obtain ⟨cell, hcell, hposition, -⟩ := (stays_sweep _).cells hcell'
      refine ⟨cell, ?_, hposition⟩
      rw [hsame c, Workspace.cell?, ← hvcells]
      exact hcell
    rw [Option.elim_some, hd', opening_within hv, opening_eq hv]
    refine ⟨opened, [], ops, rfl, (hvpassage.sweep hv).cascades himmediate ?_
      (hplaces.of_positions hstays) (inDocument_prepare hprepare)
      (fun op hop => (hrooms op hop).stay hstays) hplaced⟩
    rw [sweep_agenda]
    exact hv

end Launch

end Document

end MathCanvas
