import MathCanvas.Proofs.Document.Enlisted
import MathCanvas.Proofs.Document.Homing

/-!
# Cells that are in a document

The client of a workspace can hold cells of which a document knows nothing. But in a document at
rest there are no such cells: a cell is made together with an entry for it, and goes when the client
lets go of it (`Document.Reached.mem_of_cell?`).
-/

namespace MathCanvas

namespace Workspace

variable {w : Workspace} {ids : List CellId} {op : Op} {ops : List Op}

/-- All cells are in a list, unless the client is going to let go of them, and a cell that is going
to be made is in the list. -/
structure Listing (ids : List CellId) (w : Workspace) (ops : List Op) : Prop where
  closed : w.Closed
  answers : ∀ op, .operate op ∈ w.agenda → op.Answers
  edits : ∀ op ∈ ops, op.InDocument
  present : ∀ {c : CellId}, w.cell? c ≠ none → c ∈ ids ∨ .dropCell c ∈ ops
  create : ∀ {p : Position} {e : Expr} {s : Option ScopeId} {automatic : Bool},
    .newCell p e s automatic ∈ ops →
      w.agenda = [] ∧ ops = [.newCell p e s automatic] ∧ w.nextCell ∈ ids

theorem Listing.sweep (h : w.Listing ids ops) : w.sweep.Listing ids ops := by
  obtain ⟨cells, tree, heq, hcells⟩ := w.exists_sweep_eq
  rw [heq]
  refine ⟨⟨h.closed.subscriptions, h.closed.answering⟩, h.answers, h.edits, fun hcell => ?_,
    h.create⟩
  obtain ⟨cell, hfound⟩ := Option.ne_none_iff_exists'.mp hcell
  exact h.present (by rw [hcells hfound]; rintro ⟨⟩)

theorem Listing.step (h : w.Listing ids ops) (hbusy : w.agenda ≠ []) :
    w.step.Listing ids ops := by
  obtain ⟨task, rest, hagenda⟩ := List.exists_cons_of_ne_nil hbusy
  have hop : ∀ op, task = .operate op → op.Answers := by
    rintro op rfl
    exact h.answers op (by rw [hagenda]; exact List.mem_cons_self)
  have hclosed : ({ w with agenda := rest } : Workspace).Closed :=
    ⟨h.closed.subscriptions, h.closed.answering⟩
  have hresponds := perform_responds hclosed fun op heq => (hop op heq).inDocument.not_subscribes
  have hmakes : ∀ c, ¬({ w with agenda := rest } : Workspace).Makes c task := by
    rintro c ⟨-, p, e, s, automatic, rfl⟩
    exact hop _ rfl
  rw [step_of_agenda hagenda]
  refine Listing.sweep ⟨hclosed.responds hresponds, fun op hmem => ?_, h.edits, fun {c} hcell =>
    h.present ((perform_turn (hmakes c)).numbered.2 hcell),
    fun hnew => absurd (h.create hnew).1 hbusy⟩
  obtain ⟨tasks, htasks, hanswers⟩ := hresponds.agenda
  rw [htasks] at hmem
  rcases List.mem_append.mp hmem with hmem | hmem
  · exact hanswers op hmem
  · exact h.answers op (by rw [hagenda]; exact List.mem_cons_of_mem _ hmem)

theorem Listing.call (h : w.Listing ids (op :: ops)) (hquiet : w.agenda = []) :
    (w.call op).step.Listing ids ops := by
  let v : Workspace := { w with history := [] }
  have hclosed : v.Closed := ⟨h.closed.subscriptions, h.closed.answering⟩
  have hresponds : v.Responds (v.perform (.operate op)) := by
    refine perform_responds hclosed fun op' heq => ?_
    cases heq
    exact (h.edits op List.mem_cons_self).not_subscribes
  rw [step_call hquiet]
  refine ⟨hclosed.responds hresponds.sweep, fun op' hmem => ?_,
    fun op' hop' => h.edits op' (List.mem_cons_of_mem _ hop'), fun {c} hcell => ?_, fun hnew => ?_⟩
  · obtain ⟨tasks, htasks, hanswers⟩ := hresponds.sweep.agenda
    have hagenda : v.agenda = [] := hquiet
    rw [hagenda, List.append_nil] at htasks
    have hmem : .operate op' ∈ (v.perform (.operate op)).sweep.agenda := hmem
    rw [htasks] at hmem
    exact hanswers op' hmem
  · obtain ⟨cell, hfound⟩ := Option.ne_none_iff_exists'.mp hcell
    have hswept : (v.perform (.operate op)).cell? c ≠ none := by
      obtain ⟨cells, tree, heq, hcells⟩ := (v.perform (.operate op)).exists_sweep_eq
      have hfound : (v.perform (.operate op)).sweep.cell? c = some cell := hfound
      rw [heq] at hfound
      rw [hcells hfound]
      rintro ⟨⟩
    by_cases hmakes : v.Makes c (.operate op)
    · obtain ⟨rfl, p, e, s, automatic, heq⟩ := hmakes
      cases heq
      exact .inl (h.create List.mem_cons_self).2.2
    · rcases h.present ((perform_turn hmakes).numbered.2 hswept) with hids | hdrop
      · exact .inl hids
      · refine .inr ((List.mem_cons.mp hdrop).resolve_left ?_)
        rintro rfl
        -- nobody refers to the cell any more
        have hrefers := refersToCell_of_sweep hfound
        rw [refersToCell, Bool.or_eq_true] at hrefers
        rcases hrefers with hrefers | hrefers
        · simp [operate] at hrefers
        · simp [operate, hquiet] at hrefers
  · have hall := (h.create (List.mem_cons_of_mem _ hnew)).2.1
    rw [(List.cons.inj hall).2] at hnew
    cases hnew

end Workspace

namespace Document

open Workspace

variable {d d' : Document} {settings : DocumentSettings} {backend : Backend}
  {may : Document → Edit → Prop} {c : CellId} {e : Edit} {ops : List Op}

/-- A cell of which a document does not know any more after an edit is let go. -/
theorem mem_edit_or_drops (hprepare : d.prepare e = some (d', ops))
    (hc : c ∈ d.entries.map (·.cell)) :
    c ∈ (d.edit e).entries.map (·.cell) ∨ .dropCell c ∈ ops := by
  rw [mem_edit]
  cases e with
  | createCell p e => exact .inl (List.mem_append_left _ hc)
  | deleteCell key =>
    obtain ⟨c', hkey, hprepare⟩ := Option.map_eq_some_iff.mp hprepare
    cases hprepare
    obtain ⟨rfl, -⟩ := cell?_eq_some_iff.mp hkey
    by_cases heq : c' = c
    · subst heq
      exact .inr (by simp)
    · refine .inl (List.mem_filter.mpr ⟨hc, ?_⟩)
      simpa using heq
  | _ => exact .inl hc

/-- Only the creation of a cell makes one, and nothing else. -/
theorem eq_of_newCell_mem {p : Position} {expression : Expr} {s : Option ScopeId} {automatic : Bool}
    (hprepare : d.prepare e = some (d', ops)) (hop : .newCell p expression s automatic ∈ ops) :
    ops = [.newCell p expression s automatic] ∧
      d.workspace.nextCell ∈ (d.edit e).entries.map (·.cell) := by
  rw [mem_edit]
  cases e with
  | createCell p e =>
    cases hprepare
    obtain heq := List.mem_singleton.mp hop
    exact ⟨by rw [heq], List.mem_append_right _ List.mem_cons_self⟩
  | moveCell key p =>
    obtain ⟨c, -, hprepare⟩ := Option.bind_eq_some_iff.mp hprepare
    obtain ⟨entry, -, hprepare⟩ := Option.map_eq_some_iff.mp hprepare
    cases hprepare
    simp at hop
  | setExpression key e | deleteCell key | setCellSize key size | recalculateCell key
  | deleteRegion key =>
    obtain ⟨c, -, hprepare⟩ := Option.map_eq_some_iff.mp hprepare
    cases hprepare
    simp [homing] at hop
  | recalculate | setCalculationMode mode =>
    cases hprepare
    simp at hop
  | createRegion name start stop closed =>
    rw [prepare] at hprepare
    split at hprepare
    · cases hprepare
    · cases hprepare
      simp [homing] at hop
  | answer op answers => cases hprepare

/-- An edit begins with its operations, and all cells are listed after it. -/
theorem exists_listing (hn : d.Nested) (hquiet : d.workspace.agenda = [])
    (hlisted : ∀ c, d.workspace.cell? c ≠ none → c ∈ d.entries.map (·.cell)) (e : Edit) :
    ∃ (w : Workspace) (past : List Event) (ops : List Op),
      d.launch e = w.within past (ops.map .operate) ∧
        w.Listing ((d.edit e).entries.map (·.cell)) ops := by
  have hclosed := hn.tends.closed
  have hwithin : ∀ w : Workspace, w = w.within [] (([] : List Op).map .operate) := fun w => by
    simp [within]
  by_cases hanswer : ∃ op answers, e = .answer op answers
  · obtain ⟨op, answers, rfl⟩ := hanswer
    refine ⟨d.workspace.call op, [], [], hwithin _, ⟨hclosed.subscriptions, hclosed.answering⟩,
      fun op' hop' => ?_, by simp, fun hc => .inl (hlisted _ hc), by simp⟩
    obtain rfl : op' = op := by simpa [Workspace.call] using hop'
    exact answers
  · have hother : ∀ op answers, e ≠ .answer op answers := fun op answers heq =>
      hanswer ⟨op, answers, heq⟩
    rw [launch_eq hother]
    cases hprepare : d.prepare e with
    | none =>
      have hedit : d.edit e = d := by rw [edit_eq_run hother, hprepare, Option.elim_none]
      rw [hedit]
      refine ⟨d.workspace, [], [], hwithin _, hclosed, ?_, by simp, fun hc => .inl (hlisted _ hc),
        by simp⟩
      simp [hquiet]
    | some called =>
      obtain ⟨d', ops⟩ := called
      have hsame : d'.workspace.cells = d.workspace.cells ∧
          d'.workspace.nextCell = d.workspace.nextCell ∧ d'.workspace.agenda = [] ∧
          d'.workspace.Closed := by
        rcases hn.workspace_prepare hquiet hprepare with heq | ⟨tree, held, -, heq⟩
        · rw [heq]
          exact ⟨rfl, rfl, hquiet, hclosed⟩
        · rw [heq]
          exact ⟨rfl, rfl, hquiet, ⟨hclosed.subscriptions, hclosed.answering⟩⟩
      obtain ⟨hcells, hnext, hquiet', hclosed'⟩ := hsame
      have hlisting : ({ d'.workspace with history := [] } : Workspace).Listing
          ((d.edit e).entries.map (·.cell)) ops := {
        closed := ⟨hclosed'.subscriptions, hclosed'.answering⟩
        answers := by simp [hquiet']
        edits := fun op hop => (inDocument_prepare hprepare op hop).1
        present := fun {c} hc => by
          refine mem_edit_or_drops hprepare (hlisted c ?_)
          rwa [Workspace.cell?, ← hcells]
        create := fun hnew => by
          obtain ⟨hops, hmem⟩ := eq_of_newCell_mem hprepare hnew
          exact ⟨hquiet', hops, hnext ▸ hmem⟩ }
      exact ⟨_, [], ops, opening_eq hquiet' ops, hlisting.sweep⟩

/-- In a document at rest every cell has an entry. -/
theorem Reached.mem_of_cell? (h : Reached settings backend may d) (hbackend : backend.Answering)
    (hquiet : d.workspace.agenda = []) :
    ∀ c, d.workspace.cell? c ≠ none → c ∈ d.entries.map (·.cell) := by
  induction h with
  | new => exact fun c hc => absurd (by simp [Document.new, Workspace.cell?]) hc
  | @edit d e hreached hbefore _ ih =>
    obtain ⟨n, heq⟩ := exists_edit_eq_settle hbefore e
    obtain ⟨w, past, ops, hlaunch, hlisting⟩ :=
      exists_listing (hreached.nested hbackend) hbefore (ih hbefore) e
    generalize (d.edit e).entries.map (·.cell) = ids at hlisting ⊢
    obtain ⟨w', past', ops', hsettle, hlisting'⟩ := exists_settle_within
      (P := fun w ops => w.Listing ids ops)
      (fun w ops h hbusy => h.step hbusy) (fun w op ops h hquiet => h.call hquiet) n hlisting
    rw [heq, hlaunch, hsettle] at hquiet ⊢
    -- no operation is left
    have hops : ops' = [] := List.map_eq_nil_iff.mp (List.append_eq_nil_iff.mp hquiet).2
    subst hops
    exact fun c hc => (hlisting'.present hc).resolve_right (by simp)

end Document

end MathCanvas
