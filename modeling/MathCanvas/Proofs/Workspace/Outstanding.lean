import MathCanvas.Proofs.Workspace.Orderly

/-!
# Outstanding commands

A command is *outstanding* from being sent until it is answered or cancelled. As long as no cell
begins a run during a refresh of it, at most one command of a cell is outstanding, it is the active
one of the cell or is cancelled next, and there is none at the moment when another one is sent
(`Run.active_of_outstanding`). `refresh_sends_twice` is a run in which a cell is refreshed during a
refresh of it, and two of its commands are outstanding at once.
-/

namespace MathCanvas

namespace Workspace

variable {w w' : Workspace} {c : CellId} {cell : Cell} {task : Task} {agenda tasks : List Task}
  {past : List Event} {id : CommandId} {backend : Backend}

/-- A command of a cell was sent and was neither answered nor cancelled, where `past` are the events
of the operations that are over. -/
def Outstanding (past : List Event) (w : Workspace) (c : CellId) (id : CommandId) : Prop :=
  (w.commands.find? id).map (·.cell) = some c ∧ .cancelled id ∉ past ++ w.history

instance (past : List Event) (w : Workspace) (c : CellId) (id : CommandId) :
    Decidable (Outstanding past w c id) :=
  inferInstanceAs (Decidable (_ ∧ _))

theorem Outstanding.of_leaves (h : Outstanding past w' c id) (hleaves : w.Leaves c w') :
    Outstanding past w c id := by
  obtain ⟨hcell, hcancelled⟩ := h
  obtain ⟨command, hfind, hcommand⟩ := Option.map_eq_some_iff.mp hcell
  obtain ⟨more, hhistory⟩ := hleaves.history
  refine ⟨Option.map_eq_some_iff.mpr ⟨command, hleaves.command hfind hcommand, hcommand⟩,
    fun hmem => hcancelled ?_⟩
  rw [hhistory, ← List.append_assoc]
  exact List.mem_append_left _ hmem

/-- The outstanding commands of a cell are its active one, or one that is cancelled next. -/
def Accounted (past : List Event) (w : Workspace) (c : CellId) (agenda : List Task) : Prop :=
  ∀ cell id, w.cell? c = some cell → Outstanding past w c id →
    cell.active = some id ∨ cell.active = none ∧ agenda.head? = some (.cancel id)

namespace Accounted

/-- A command that is cancelled is no longer outstanding. -/
theorem cancel {id₀ : CommandId} (h : Accounted past w c (.cancel id₀ :: w.agenda)) :
    Accounted past (w.perform (.cancel id₀)) c (w.perform (.cancel id₀)).agenda := by
  intro cell id hcell hout
  have hsame : (w.perform (.cancel id₀)).cells = w.cells ∧
      (w.perform (.cancel id₀)).history = w.history ++ [.cancelled id₀] := by
    unfold Workspace.perform
    simp only
    split <;> exact ⟨rfl, rfl⟩
  have hcell' : w.cell? c = some cell := by
    rw [cell?, ← hsame.1]
    exact hcell
  rcases h cell id hcell' (hout.of_leaves (.cancel id₀)) with hactive | ⟨-, hhead⟩
  · exact .inl hactive
  · cases hhead
    refine absurd ?_ hout.2
    rw [hsame.2]
    simp

theorem putCell (tasks : List Task) (hactive : ∀ id, Outstanding past w c id →
      cell.active = some id ∨ cell.active = none ∧ (tasks ++ w.agenda).head? = some (.cancel id)) :
    Accounted past ((w.putCell c cell).push tasks) c (tasks ++ w.agenda) := by
  intro found id hfound hout
  have hlookup : (w.putCell c cell).cell? c = some found := hfound
  rw [cell?_putCell, Option.some.injEq] at hlookup
  exact hlookup ▸ hactive id hout

/-- The active command is given up, and is cancelled next. -/
theorem giveUp (h : ∀ id, Outstanding past w c id → cell.active = some id) {cell' : Cell}
    (hactive : cell'.active = none) (tasks : List Task) :
    Accounted past ((w.putCell c cell').push (cancelTasks cell.active ++ tasks)) c
      (cancelTasks cell.active ++ tasks ++ w.agenda) := by
  refine putCell _ fun id hout => .inr ⟨hactive, ?_⟩
  rw [h id hout]
  rfl

theorem advance {generation : Nat} (h : ∀ id, Outstanding past w c id → cell.active = some id)
    (horderly : Orderly c (.cell c (.advance generation) :: w.agenda) cell)
    (hcell : w.cell? c = some cell) :
    Accounted past (w.advance c cell generation) c (w.advance c cell generation).agenda := by
  have hkept : Accounted past w c w.agenda := by
    intro found id hfound hout
    rw [hcell, Option.some.injEq] at hfound
    exact .inl (hfound ▸ h id hout)
  unfold Workspace.advance
  split
  · exact hkept
  rename_i hgeneration
  rw [not_not] at hgeneration
  subst hgeneration
  have hnone := horderly.vacant_of_advance.2
  split
  · exact hkept
  split
  · exact putCell [] fun id hout => .inl (h id hout)
  · -- nothing is outstanding at this moment but the command that is sent
    intro found id hfound hout
    have hlookup : (w.putCell c { cell with
      active := some w.nextCommand, status := .evaluating }).cell? c = some found := hfound
    rw [cell?_putCell, Option.some.injEq] at hlookup
    subst hlookup
    obtain ⟨hcommand, hcancelled⟩ := hout
    have hcommand' : ((w.commands.dispatch w.nextCommand _).find? id).map (·.cell) = some c :=
      hcommand
    rw [DispatchQueue.find?_dispatch] at hcommand'
    split at hcommand'
    · rename_i hid
      exact .inl (congrArg some hid.symm)
    · have hold : Outstanding past w c id := by
        refine ⟨hcommand', fun hmem => hcancelled ?_⟩
        show .cancelled id ∈ past ++ (w.history ++ _)
        rw [← List.append_assoc]
        exact List.mem_append_left _ hmem
      rw [h id hold] at hnone
      cases hnone
  · exact putCell _ fun id hout => .inl (h id hout)

theorem receive_same (w : Workspace) (id : CommandId) (c : CellId) (outcome : Outcome) :
    (w.receive id c outcome).commands = w.commands ∧
      (w.receive id c outcome).history = w.history := by
  unfold Workspace.receive
  split
  · exact ⟨rfl, rfl⟩
  split
  · exact ⟨rfl, rfl⟩
  simp only
  split
  · exact ⟨rfl, rfl⟩
  split <;> exact ⟨rfl, rfl⟩

/-- The active command is answered, and none is outstanding. -/
theorem receive {id₀ : CommandId} (h : ∀ id, Outstanding past w c id → cell.active = some id)
    (hactive : cell.active = some id₀) (outcome : Outcome) :
    let w' := ({ w with commands := w.commands.cancel id₀ } : Workspace).receive id₀ c outcome
    Accounted past w' c w'.agenda := by
  intro w' found id _ hout
  obtain ⟨hcommands, hhistory⟩ :=
    receive_same ({ w with commands := w.commands.cancel id₀ }) id₀ c outcome
  obtain ⟨hcommand, hcancelled⟩ := hout
  rw [hcommands, DispatchQueue.find?_cancel] at hcommand
  rw [hhistory] at hcancelled
  split at hcommand
  · cases hcommand
  · rename_i hne
    have hsame := h id ⟨hcommand, hcancelled⟩
    rw [hactive] at hsame
    exact absurd (Option.some.inj hsame).symm hne

/-- One task keeps the outstanding commands accounted for. -/
theorem perform (h : Accounted past w c (task :: w.agenda))
    (hsettled : w.Settled c (task :: w.agenda)) :
    Accounted past (w.perform task) c (w.perform task).agenda := by
  by_cases hcancel : ∃ id, task = .cancel id
  · obtain ⟨id, rfl⟩ := hcancel
    exact h.cancel
  have hout : ∀ {cell}, w.cell? c = some cell → ∀ id, Outstanding past w c id →
      cell.active = some id := by
    intro cell hcell id hout
    refine (h cell id hcell hout).resolve_right fun hnext => hcancel ⟨id, ?_⟩
    exact Option.some.inj hnext.2
  by_cases hmakes : w.Makes c task
  · obtain ⟨rfl, position, expression, scope, automatic, rfl⟩ := hmakes
    obtain ⟨-, hcommands, -, -⟩ := w.operate_newCell position expression scope automatic
    intro cell id _ hout
    obtain ⟨command, hfind, hcommand⟩ := Option.map_eq_some_iff.mp hout.1
    have hfind' : w.commands.find? id = some command := hcommands ▸ hfind
    exact absurd hcommand ((hsettled.unborn (Nat.le_refl _)).command hfind')
  have hturn := perform_turn hmakes
  generalize w.perform task = w' at hturn ⊢
  cases hturn with
  | leave hidle hleaves =>
    intro cell' id hcell' hout'
    obtain ⟨cell, hcell, hsame⟩ := hleaves.cell hcell'
    exact .inl (hsame.active.trans (hout hcell id (hout'.of_leaves hleaves)))
  | renew hcell | reconsider hcell =>
    intro cell id hcell hout'
    exact .inl (hout hcell id hout')
  | invalidate hcell => exact giveUp (hout hcell) rfl _
  | rest hcell => exact putCell [] fun id hout' => .inl (hout hcell id hout')
  | @evaluate cell hcell =>
    refine putCell _ fun id hout' => .inl ?_
    rw [(cell.begin_run fun i => (w.inputValue i).isUnset).2.1]
    exact hout hcell id hout'
  | advance hcell => exact advance (hout hcell) (hsettled.inOrder _ hcell) hcell
  | answer outcome hcell hactive => exact receive (hout hcell) hactive outcome
  | unregister hcell => exact giveUp (hout hcell) rfl _
  | @edit cell expression hcell =>
    intro found id hfound hout'
    have hlookup : (w.putCell c { cell with expression, suspended := true }).cell? c
      = some found := hfound
    rw [cell?_putCell, Option.some.injEq] at hlookup
    exact .inl (hlookup ▸ hout hcell id hout')
  | awake hcell => exact putCell _ fun id hout' => .inl (hout hcell id hout')

end Accounted

theorem Accounted.sweep (h : Accounted past w c w.agenda) :
    Accounted past w.sweep c w.sweep.agenda := by
  obtain ⟨cells, tree, heq, hcells⟩ := w.exists_sweep_eq
  rw [heq]
  exact fun cell id hcell hout => h cell id (hcells hcell) hout

theorem Accounted.call (h : Accounted past w c w.agenda) (hquiet : w.agenda = []) (op : Op) :
    Accounted (past ++ w.history) (w.call op) c (w.call op).agenda := by
  intro cell id hcell hout
  have hout' : Outstanding past w c id := by
    obtain ⟨hcommand, hcancelled⟩ := hout
    refine ⟨hcommand, ?_⟩
    rwa [Workspace.call, List.append_nil] at hcancelled
  refine .inl ((h cell id hcell hout').resolve_right ?_)
  rw [hquiet]
  simp

theorem Run.accounted (h : Run (fun w => w.reenters = false) { backend } past w) (c : CellId) :
    Accounted past w c w.agenda := by
  induction h with
  | refl =>
    intro cell id hcell
    simp [cell?] at hcell
  | call op _ hquiet ih => exact ih.call hquiet op
  | @step past w h hreenters ih =>
    cases hagenda : w.agenda with
    | nil =>
      rw [Workspace.step, hagenda]
      exact ih
    | cons task rest =>
      rw [step_of_agenda hagenda]
      have hsettled := h.settled c
      rw [hagenda] at ih
      have hpopped : Accounted past { w with agenda := rest } c (task :: rest) := ih
      exact (hpopped.perform (hsettled.pop hagenda)).sweep

/-- As long as no cell begins a run during a refresh of it: an outstanding command of a cell is its
active one, or is cancelled next; two outstanding commands of a cell are one; and none is
outstanding when the run of the cell goes on, which is when commands are sent. -/
theorem Run.active_of_outstanding (h : Run (fun w => w.reenters = false) { backend } past w)
    (hcell : w.cell? c = some cell) :
    (∀ id, Outstanding past w c id →
      cell.active = some id ∨ cell.active = none ∧ w.agenda.head? = some (.cancel id)) ∧
    (∀ id id', Outstanding past w c id → Outstanding past w c id' → id = id') ∧
    (w.agenda.head? = some (.cell c (.advance cell.generation)) →
      ∀ id, ¬Outstanding past w c id) := by
  have haccounted := h.accounted c
  refine ⟨fun id => haccounted cell id hcell, fun id id' hid hid' => ?_, fun hhead id hid => ?_⟩
  · rcases haccounted cell id hcell hid with hactive | ⟨hactive, hhead⟩ <;>
      rcases haccounted cell id' hcell hid' with hactive' | ⟨hactive', hhead'⟩
    · exact Option.some.inj (hactive.symm.trans hactive')
    · rw [hactive] at hactive'
      cases hactive'
    · rw [hactive] at hactive'
      cases hactive'
    · exact Task.cancel.inj (Option.some.inj (hhead.symm.trans hhead'))
  · obtain ⟨rest, hagenda⟩ := List.head?_eq_some_iff.mp hhead
    have horderly := (h.settled c).inOrder cell hcell
    rw [hagenda] at horderly
    have hnone := horderly.vacant_of_advance.2
    rcases haccounted cell id hcell hid with hactive | ⟨-, hhead'⟩
    · rw [hnone] at hactive
      cases hactive
    · rw [hhead] at hhead'
      cases hhead'

/-- Replacing the expression of a cell that waits for its command: the command is cancelled, and
only the next one is outstanding. -/
theorem active_of_outstanding_edited :
    let old : Expr := .app "Equal" [.string "old", .missing]
    let new : Expr := .app "Equal" [.string "new", .missing]
    let made := (({ backend := .recording } : Workspace).call
      (.newCell .origin old (some 0) true)).settle 11
    let edited := (made.call (.setExpression 0 new)).settle 11
    ∃ cell, edited.cell? 0 = some cell ∧ Outstanding ([] ++ made.history) edited 0 1 ∧
      cell.active = some 1 := by
  intro old new made edited
  have hmade : Run (fun w => w.reenters = false) { backend := .recording } [] made :=
    (Run.refl.call (.newCell .origin old (some 0) true) rfl).settle (by decide +kernel)
  have hquiet : made.agenda = [] := by decide +kernel
  have hedited : Run (fun w => w.reenters = false) { backend := .recording } ([] ++ made.history)
      edited := by
    have hsteps : ∀ n < 11, ((made.call (.setExpression 0 new)).settle n).reenters = false := by
      decide +kernel
    exact (hmade.call (.setExpression 0 new) hquiet).settle hsteps
  have hout : Outstanding ([] ++ made.history) edited 0 1 := by decide +kernel
  have hidle : edited.agenda.head? ≠ some (.cancel 1) := by
    have hempty : edited.agenda = [] := by decide +kernel
    rw [hempty]
    simp
  obtain ⟨cell, hcell⟩ : ∃ cell, edited.cell? 0 = some cell :=
    Option.isSome_iff_exists.mp (by decide +kernel)
  clear_value edited
  obtain ⟨hactive, -, -⟩ := hedited.active_of_outstanding hcell
  exact ⟨cell, hcell, hout, (hactive 1 hout).resolve_right fun hnext => hidle hnext.2⟩

/-- The cell `z := a + b` is done when `a` changes. Its output is cleared, and the subscription to a
reader of it changes `b`, so that the cell is refreshed once more inside its refresh. It sends a
command for each of the two, and cancels neither. -/
theorem refresh_sends_twice :
    let five : Expr := .number ⟨0x4014000000000000⟩
    let seven : Expr := .number ⟨0x401c000000000000⟩
    let one : Expr := .number ⟨0x3ff0000000000000⟩
    let sum : Expr := .app "Add" [.symbol "a", .symbol "b"]
    let w := (((((((((({ backend := .recording } : Workspace).apply
      (.addDefinition 0 "a" .origin)).2.apply
      (.set 0 one)).2.apply (.addDefinition 0 "b" .origin)).2.apply (.set 1 one)).2.apply
      (.newCell ⟨.zero false, ⟨0x4014000000000000⟩⟩ (.app "Assign" [.symbol "z", sum]) (some 0)
        true)).2.apply (.answer (some 0) (.outcome (.ok (.number ⟨0x4000000000000000⟩))))).2.apply
      (.addReader 0 "z" ⟨.zero false, ⟨0x4022000000000000⟩⟩)).2.apply
      (.subscribe (.reader 0) fun _ _ => [.set 1 seven])).2.apply (.set 0 five)).2
    w.history = [.told 0 .unset, .dispatched 1 ⟨0, [("a", five), ("b", seven)], sum⟩,
        .dispatched 2 ⟨0, [("a", five), ("b", seven)], sum⟩] ∧
      Outstanding [] w 0 1 ∧ Outstanding [] w 0 2 := by
  decide +kernel

end Workspace

end MathCanvas
