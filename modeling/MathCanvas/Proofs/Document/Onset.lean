import MathCanvas.Proofs.Document.Cascade

/-!
# How cascades begin

Every operation of a document begins a cascade (`Workspace.exists_cascade_operate`), and if there is
room for the cell that it makes or moves (`Workspace.RoomFor`), the cells stand in different places
while the cascade lasts (`Workspace.Cascading.call`).
-/

namespace MathCanvas

namespace Workspace

variable {w w' : Workspace} {c : CellId} {cell cell' : Cell} {op : Op}

/-! ### What an operation sets off -/

/-- There is a place for a cell that is made or moved. -/
def RoomFor (w : Workspace) : Op → Prop
  | .newCell p _ _ _ => p.Interior ∧
    ∀ c cell, w.cell? c = some cell → cell.position.same p = false
  | .setPosition c p => p.Interior ∧
    ∀ c' cell, w.cell? c' = some cell → c' ≠ c → cell.position.same p = false
  | _ => True

/-- A cascade begins with tasks that can have any height. -/
theorem exists_cascade (htied : w'.tree.WellTied)
    (hunder : ∀ t ∈ w'.agenda, ∃ k, w'.Under w'.inward t k) (hphased : Phased w'.agenda)
    (hcalm : ∀ op, .operate op ∉ w'.agenda) (hstacked : w'.Stacked w'.inward w'.agenda) :
    ∃ g heights, w'.Cascade g heights w'.agenda := by
  have hheights : ∀ tasks : List Task, (∀ t ∈ tasks, ∃ k, w'.Under w'.inward t k) →
      ∃ heights, List.Forall₂ (w'.Under w'.inward) tasks heights := by
    intro tasks
    induction tasks with
    | nil => exact fun _ => ⟨[], .nil⟩
    | cons t tasks ih =>
      intro htasks
      obtain ⟨k, hk⟩ := htasks t List.mem_cons_self
      obtain ⟨heights, hheights⟩ := ih fun t' ht' => htasks t' (List.mem_cons_of_mem _ ht')
      exact ⟨k :: heights, .cons hk hheights⟩
  obtain ⟨heights, hheights⟩ := hheights w'.agenda hunder
  exact ⟨w'.inward, heights, hheights, hphased, fun op hop => hcalm op (List.mem_of_mem_tail hop),
    hstacked, arranged_inward htied⟩

theorem exists_cascade_quiet (htied : w.tree.WellTied) (hquiet : w.agenda = []) :
    ∃ g heights, w.Cascade g heights w.agenda := by
  refine exists_cascade htied ?_ ?_ ?_ (stacked_of_tail ?_) <;> simp [hquiet, Phased]

section Begin

variable (htied : w.tree.WellTied) (hquiet : w.agenda = [])
include htied hquiet

/-- A cell leaves its scope and enters another one. -/
theorem exists_cascade_setScope (c : CellId) (cell : Cell) (scope : Option ScopeId) :
    ∃ g heights, (w.setScope c cell scope).Cascade g heights (w.setScope c cell scope).agenda := by
  unfold setScope
  split
  · exact exists_cascade_quiet htied hquiet
  have hagenda : ∀ tasks, ((w.putCell c cell.unregistered).push tasks).agenda = tasks := by
    intro tasks
    show tasks ++ w.agenda = tasks
    rw [hquiet, List.append_nil]
  refine exists_cascade htied (fun t ht => ?_) ?_ ?_ (stacked_of_tail fun t ht c' => ?_)
  · simp only [hagenda, cancelTasks, List.mem_append, List.mem_map, List.mem_cons, List.not_mem_nil,
      or_false] at ht
    rcases ht with ((⟨id, -, rfl⟩ | ⟨i, -, rfl⟩) | ⟨o, -, rfl⟩) | rfl | rfl
    · exact ⟨.floor 0, trivial⟩
    · exact ⟨.floor 1, le_refl _⟩
    · exact ⟨.floor 1, le_refl _⟩
    · exact ⟨.floor 4, le_refl _⟩
    · exact ⟨.floor 0, trivial⟩
  · rw [hagenda]
    have htrue : ∀ {α : Type} (l : List α), l.Pairwise fun _ _ => True :=
      fun l => List.pairwise_of_forall fun _ _ => trivial
    simp [Phased, cancelTasks, List.pairwise_append, List.pairwise_map, Task.phase, Phase.before,
      or_imp, forall_and, htrue]
  · rw [hagenda]
    simp [cancelTasks]
  · have ht := List.mem_of_mem_tail ht
    simp only [hagenda, cancelTasks, List.mem_append, List.mem_map, List.mem_cons, List.not_mem_nil,
      or_false] at ht
    rcases ht with ((⟨id, -, rfl⟩ | ⟨i, -, rfl⟩) | ⟨o, -, rfl⟩) | rfl | rfl <;>
      simp [Task.refreshes, CellTask.refreshes]

/-- A cell is brought in step with its expression. -/
theorem exists_cascade_batch (c : CellId) (cell : Cell) (hawake : cell.suspended = false)
    (always : Bool) :
    ∃ g heights, ((w.push [.releaseCell c]).batch c cell always).Cascade g heights
      ((w.push [.releaseCell c]).batch c cell always).agenda := by
  have hagenda : ((w.push [.releaseCell c]).batch c cell always).agenda =
      [.cell c .synchronize, .cell c (.endBatch false always), .releaseCell c] := by
    rw [← hawake]
    show [.cell c .synchronize, .cell c (.endBatch cell.suspended always), .releaseCell c]
      ++ w.agenda = _
    rw [hquiet, List.append_nil]
  have hsuspended : ((w.push [.releaseCell c]).batch c cell always).Suspended c := by
    intro found hfound
    have hlookup := cell?_putCell (w.push [.releaseCell c]) c { cell with suspended := true }
    cases hlookup.symm.trans hfound
    rfl
  refine exists_cascade htied (fun t ht => ?_) ?_ ?_ (stacked_of_tail ?_)
  · simp only [hagenda, List.mem_cons, List.not_mem_nil, or_false] at ht
    rcases ht with rfl | rfl | rfl
    · exact ⟨.floor 3, hsuspended, le_refl _⟩
    · exact ⟨.floor 1, rfl, le_refl _⟩
    · exact ⟨.floor 0, trivial⟩
  all_goals simp [hagenda, Phased, Task.phase, Phase.before, Task.refreshes, CellTask.refreshes]

end Begin

/-- A cell evaluates, or is refreshed. -/
theorem exists_cascade_drive (htied : w.tree.WellTied)
    (hawake : ∀ cell, w.cell? c = some cell → cell.suspended = false)
    (hagenda : w.agenda = [] ∨ w.agenda = [.cell c .evaluate, .releaseCell c] ∨
      w.agenda = [.cell c .invalidate, .cell c .evaluate, .releaseCell c]) :
    ∃ g heights, w.Cascade g heights w.agenda := by
  have hkind : ∀ t ∈ w.agenda,
      t = .cell c .invalidate ∨ t = .cell c .evaluate ∨ t = .releaseCell c := by
    intro t ht
    rcases hagenda with hagenda | hagenda | hagenda <;> simp_all
  have hunder : ∀ t ∈ w.agenda, w.Under w.inward t (height 0 (w.inward.cell c) 4 0) := by
    intro t ht
    rcases hkind t ht with rfl | rfl | rfl
    · exact fun cell hcell => ⟨hawake cell hcell, le_refl _⟩
    · exact fun cell hcell => ⟨hawake cell hcell, (height_lt_of_rank (by omega)).le⟩
    · trivial
  refine exists_cascade htied (fun t ht => ⟨_, hunder t ht⟩) ?_ (fun op hop => ?_) ?_
  · rcases hagenda with hagenda | hagenda | hagenda <;>
      simp [hagenda, Phased, Task.phase, Phase.before]
  · simpa using hkind _ hop
  · intro c' pre later post heq hlater t ht
    have hc : c' = c := by
      rcases hkind later (by rw [heq]; simp) with rfl | rfl | rfl
      · exact (Task.refreshes_cell.mp hlater).1.symm
      · exact (Task.refreshes_cell.mp hlater).1.symm
      · cases hlater
    subst hc
    exact ⟨_, height_lt_of_rank (by omega), hunder t (by rw [heq]; exact List.mem_append_left _ ht)⟩

/-- What an operation sets off is a cascade. -/
theorem exists_cascade_operate (htied : w.tree.WellTied) (hquiet : w.agenda = [])
    (hawake : ∀ c cell, w.cell? c = some cell → cell.suspended = false) (hop : op.InDocument)
    (hanswers : ¬op.Answers) :
    ∃ g heights, (w.operate op).2.Cascade g heights (w.operate op).2.agenda := by
  have hheld : ∀ {c} {f : Cell → Workspace}, (∀ cell, w.cell? c = some cell →
      ∃ g heights, (f cell).Cascade g heights (f cell).agenda) →
      ∃ g heights, (w.onHeldCell c f).Cascade g heights (w.onHeldCell c f).agenda := by
    intro c f hf
    unfold onHeldCell onCell
    split
    · split
      · rename_i cell hcell
        exact hf cell hcell
      · exact exists_cascade_quiet htied hquiet
    · exact exists_cascade_quiet htied hquiet
  have hagenda : ∀ (tasks : List Task), tasks ++ w.agenda = tasks := fun tasks => by
    rw [hquiet, List.append_nil]
  cases op with
  | newCell position expression scope automatic =>
    let extended : Workspace :=
      { w with nextCell := w.nextCell + 1, heldCells := w.heldCells ++ [w.nextCell] }
    let made := extended.putCell w.nextCell { expression, position, automatic }
    exact exists_cascade_setScope (w := made) htied hquiet _ _ _
  | setScope c scope =>
    refine hheld fun cell hcell => ?_
    split
    · exact exists_cascade_setScope htied hquiet c cell scope
    · exact exists_cascade_quiet htied hquiet
  | setExpression c expression =>
    exact hheld fun cell hcell =>
      exists_cascade_batch htied hquiet c { cell with expression } (hawake c cell hcell) true
  | setPosition c position =>
    refine hheld fun cell hcell => ?_
    split
    · exact exists_cascade_quiet htied hquiet
    · exact exists_cascade_batch htied hquiet c { cell with position } (hawake c cell hcell) false
  | setAutomatic c automatic =>
    refine hheld fun cell hcell => exists_cascade_drive (c := c) htied (fun found hfound => ?_) ?_
    · cases (cell?_putCell w c { cell with automatic }).symm.trans hfound
      exact hawake c cell hcell
    · split
      · exact .inr (.inl (hagenda _))
      · exact .inl (hagenda _)
  | recalculate c =>
    exact hheld fun cell hcell => exists_cascade_drive (c := c) htied (hawake c)
      (.inr (.inr (hagenda _)))
  | recalculateStale c =>
    refine hheld fun cell hcell => ?_
    split
    · exact exists_cascade_drive (c := c) htied (hawake c) (.inr (.inr (hagenda _)))
    · exact exists_cascade_quiet htied hquiet
  | dropCell c => exact exists_cascade_quiet htied hquiet
  | _ => exact absurd hop hanswers

/-! ### Places of cells -/

/-- A cell stands where it stood, unless the operation puts it somewhere. -/
theorem position_operate (hcell' : (w.operate op).2.cell? c = some cell') :
    (∃ cell, w.cell? c = some cell ∧ cell'.position = cell.position) ∨
      op = .setPosition c cell'.position ∨
      c = w.nextCell ∧ ∃ e s automatic, op = .newCell cell'.position e s automatic := by
  by_cases hmakes : w.Makes c (.operate op)
  · obtain ⟨rfl, position, expression, scope, automatic, heq⟩ := hmakes
    cases heq
    refine .inr (.inr ⟨rfl, expression, scope, automatic, ?_⟩)
    have hposition : cell'.position = position := by
      unfold operate setScope at hcell'
      simp only at hcell'
      split at hcell'
      · cases (cell?_putCell _ _ _).symm.trans hcell'
        rfl
      · cases (cell?_putCell _ _ _).symm.trans hcell'
        rfl
    rw [hposition]
  obtain ⟨cell, hcell⟩ := Option.ne_none_iff_exists'.mp
    ((perform_turn hmakes).numbered.2 (by rw [perform, hcell']; rintro ⟨⟩))
  have hstay : cell'.position = cell.position →
      ∃ cell, w.cell? c = some cell ∧ cell'.position = cell.position :=
    fun heq => ⟨cell, hcell, heq⟩
  cases perform_alters hcell hmakes hcell' with
  | move position => exact .inr (.inl rfl)
  | _ => exact .inl (hstay rfl)

/-- If there is room for a cell that is made or moved, the cells stand in different places
afterwards. -/
theorem Spaced.operate (h : w.Spaced) (hroom : w.RoomFor op) : (w.operate op).2.Spaced := by
  have hinterior : ∀ {c cell'}, (w.operate op).2.cell? c = some cell' →
      cell'.position.Interior := by
    intro c cell' hcell'
    rcases position_operate hcell' with ⟨cell, hcell, heq⟩ | rfl | ⟨-, e, s, automatic, rfl⟩
    · exact heq ▸ h.interior hcell
    · exact hroom.1
    · exact hroom.1
  -- one of two cells is put somewhere, and the other one stays
  have hapart : ∀ {c c' : CellId} {cell before : Cell}, w.cell? c' = some before →
      (op = .setPosition c cell.position ∨
        c = w.nextCell ∧ ∃ e s automatic, op = .newCell cell.position e s automatic) →
      before.position.same cell.position = true → c = c' := by
    intro c c' cell before hbefore hplaced hsame
    rcases hplaced with rfl | ⟨rfl, e, s, automatic, rfl⟩
    · by_contra hne
      rw [hroom.2 c' before hbefore (Ne.symm hne)] at hsame
      cases hsame
    · rw [hroom.2 c' before hbefore] at hsame
      cases hsame
  have hsymm : ∀ {p q : Position}, p.same q = true → q.same p = true := fun hsame =>
    Position.same_iff.mpr (Position.same_iff.mp hsame).symm
  refine ⟨fun {c c' cell cell'} hcell hcell' hsame => ?_, hinterior⟩
  rcases position_operate hcell with ⟨before, hbefore, hposition⟩ | hplaced <;>
    rcases position_operate hcell' with ⟨before', hbefore', hposition'⟩ | hplaced'
  · rw [hposition, hposition'] at hsame
    exact h.apart hbefore hbefore' hsame
  · exact (hapart hbefore hplaced' (hposition ▸ hsame)).symm
  · exact hapart hbefore' hplaced (hsymm (hposition' ▸ hsame))
  · -- both are the cell that is put somewhere
    rcases hplaced with rfl | ⟨rfl, e, s, automatic, rfl⟩
    · rcases hplaced' with heq | ⟨-, e, s, automatic, heq⟩
      · exact (Op.setPosition.inj heq).1
      · cases heq
    · rcases hplaced' with heq | ⟨rfl, -⟩
      · cases heq
      · rfl

theorem Spaced.sweep (h : w.Spaced) : w.sweep.Spaced := by
  refine h.of_positions fun hcell' => ?_
  obtain ⟨cell, hcell, hposition, -⟩ := w.stays_sweep.cells hcell'
  exact ⟨cell, hcell, hposition⟩

/-- An operation for which there is room begins a cascade. -/
theorem Cascading.call (hw : w.Cascading) (hquiet : w.agenda = []) (hop : op.InDocument)
    (hanswers : ¬op.Answers) (hroom : w.RoomFor op) : (w.call op).step.Cascading ∧
      ∃ g heights, (w.call op).step.Cascade g heights (w.call op).step.agenda := by
  have hagenda : (w.call op).agenda = [.operate op] := rfl
  have hstep := step_call hquiet op
  have hsecluded := hw.secluded.call hquiet hop.not_subscribes
  have hcalled : (w.call op).step.Cascading := {
    enlisted := (hw.enlisted.call hquiet hop.not_subscribes).step (by rw [hagenda]; rintro ⟨⟩)
    secluded := by
      rw [step_of_agenda hagenda]
      exact hsecluded.step hagenda
    immediate := by
      have hclosed : ({ w with history := [] } : Workspace).Closed :=
        ⟨hw.secluded.subscriptions, hw.secluded.prompt.answering⟩
      have hresponds : ({ w with history := [] } : Workspace).Responds
          (({ w with history := [] } : Workspace).perform (.operate op)) :=
        perform_responds hclosed fun op' heq => by
          cases heq
          exact hop.not_subscribes
      rw [hstep]
      show (({ w with history := [] } : Workspace).perform (.operate op)).sweep.backend.Immediate
      rw [hresponds.sweep.backend]
      exact hw.immediate
    spaced := by
      rw [hstep]
      have hspaced : ({ w with history := [] } : Workspace).Spaced :=
        ⟨hw.spaced.apart, hw.spaced.interior⟩
      refine (hspaced.operate ?_).sweep
      cases op <;> exact hroom }
  refine ⟨hcalled, ?_⟩
  by_cases hdrop : ∃ c, op = .dropCell c
  · -- nothing is set off
    obtain ⟨c, rfl⟩ := hdrop
    refine exists_cascade_quiet hcalled.enlisted.ready.tied ?_
    rw [hstep, sweep_agenda]
    exact hquiet
  have hawake : ∀ c cell, w.cell? c = some cell → cell.suspended = false := fun c cell hcell =>
    (hw.secluded.batched c).not_suspended (by simp [hquiet]) hcell
  let v : Workspace := { w with history := [] }
  obtain ⟨g, heights, hcascade⟩ :=
    exists_cascade_operate (w := v) hw.enlisted.ready.tied hquiet hawake hop hanswers
  rw [hstep]
  refine ⟨g, heights, hcascade.sweep fun {c} hcell => ?_⟩
  have hperformed : (v.perform (.operate op)).cell? c ≠ none := hcell
  exact held_perform (w := v) hw.secluded.subscriptions hw.secluded.prompt
    (fun hpresent => hw.secluded.held hpresent) hperformed
    fun heq => hdrop ⟨c, Task.operate.inj heq⟩

end Workspace

end MathCanvas
