import MathCanvas.Proofs.Workspace.Deeds

/-!
# Tasks without deeds

What a task does not write down as a deed it does not do: without a deed about a command no command
is sent or answered, and without an invalidation none is cancelled (`Workspace.perform_tacit`). A cell
that is not invalidated goes on to wait for the command for which it waited
(`Workspace.errand_perform`).
-/

namespace MathCanvas

namespace Workspace

variable {w w' w'' : Workspace} {c : CellId} {cell cell' : Cell} {task : Task} {tasks : List Task}
  {op : Op}

/-- No command is sent, answered or given up, no operation is set off, and the cells stay. -/
structure Tacit (w w' : Workspace) : Prop where
  pending : ∀ id, w'.commands.find? id = w.commands.find? id
  nextCommand : w'.nextCommand = w.nextCommand
  held : ∀ c ∈ w.heldCells, c ∈ w'.heldCells
  present : ∀ {c : CellId}, w.cell? c ≠ none → w'.cell? c ≠ none
  agenda : ∃ tasks, w'.agenda = tasks ++ w.agenda ∧ Plain tasks

namespace Tacit

theorem refl (w : Workspace) : w.Tacit w :=
  ⟨fun _ => rfl, rfl, fun _ hc => hc, id, [], rfl, by simp⟩

theorem of_same (h : w.Tacit w') (hcommands : w''.commands = w'.commands)
    (hnext : w''.nextCommand = w'.nextCommand) (hheld : w''.heldCells = w'.heldCells)
    (hcells : w''.cells = w'.cells) (hagenda : w''.agenda = w'.agenda) : w.Tacit w'' where
  pending := hcommands ▸ h.pending
  nextCommand := hnext.trans h.nextCommand
  held := hheld ▸ h.held
  present hcell := by
    rw [cell?, hcells]
    exact h.present hcell
  agenda := hagenda ▸ h.agenda

theorem withTree (h : w.Tacit w') (tree : ScopeTree) : w.Tacit ({ w' with tree } : Workspace) :=
  h.of_same rfl rfl rfl rfl rfl

theorem push (h : w.Tacit w') (htasks : Plain tasks) : w.Tacit (w'.push tasks) :=
  { h with
    agenda := by
      obtain ⟨earlier, hagenda, hearlier⟩ := h.agenda
      refine ⟨tasks ++ earlier, ?_, plain_append.mpr ⟨htasks, hearlier⟩⟩
      rw [Workspace.push, hagenda, List.append_assoc] }

theorem putCell (h : w.Tacit w') (c : CellId) (cell : Cell) : w.Tacit (w'.putCell c cell) :=
  { h with
    present := fun {c'} hcell => by
      rw [cell?, Workspace.putCell, lookup_insert]
      split
      · exact Option.some_ne_none _
      · exact h.present hcell }

/-! ### The parts of a task -/

theorem spread (h : w.Tacit w') (s : ScopeId) (result : List ReaderId × ScopeTree) :
    w.Tacit (w'.spread s result) :=
  (h.withTree _).push (by simp [noticeTasks, Task.plain])

theorem write (h : w.Tacit w') (s : ScopeId) (id : SlotId) (v : SlotValue) :
    w.Tacit (w'.write s id v) := by
  unfold Workspace.write
  simp only
  split
  · exact (h.withTree _).push (by simp [Task.plain])
  · exact h.withTree _

theorem tell (hsubscriptions : w.subscriptions = #[]) (l : Listener) (v : SlotValue) :
    w.Tacit (w.tell v l) := by
  have h := refl w
  unfold Workspace.tell
  split
  · split
    · exact h.spread _ _
    · exact h
  · split
    · exact h
    split
    · exact h
    split
    · exact h
    simp only
    split
    · exact h.putCell _ _
    · exact (h.putCell _ _).push (by simp [Task.plain])
  · rw [hsubscriptions]
    exact h

theorem advance (hcell : w.cell? c = some cell) {generation : Nat}
    (hquiet : ∀ deed ∈ w.deeds (.cell c (.advance generation)), deed.command? = none) :
    w.Tacit (w.advance c cell generation) := by
  have h := refl w
  unfold Workspace.advance
  split
  · exact h
  rename_i hgeneration
  split
  · exact h
  rename_i plan hplan
  split
  · exact h.putCell _ _
  · rename_i e hnext
    have hrequest : cell.request? = some e := by
      rw [Cell.request?, hplan, Option.map_some, hnext]
    have hsent : .sent c w.nextCommand cell.leg ∈ w.deeds (.cell c (.advance generation)) := by
      rw [deeds, hcell]
      simp [not_not.mp hgeneration, hrequest]
    cases hquiet _ hsent
  · exact (h.putCell _ _).push (by simp [Task.plain])

theorem batch (h : w.Tacit w') (c : CellId) (cell : Cell) (always : Bool) :
    w.Tacit (w'.batch c cell always) :=
  (h.putCell _ _).push (by simp [Task.plain])

/-- A cell that waits for no command enters a scope. -/
theorem setScope (h : w.Tacit w') (c : CellId) (hactive : cell.active = none)
    (scope : Option ScopeId) : w.Tacit (w'.setScope c cell scope) := by
  unfold Workspace.setScope
  split
  · exact h
  · exact (h.putCell _ _).push (by simp [cancelTasks, hactive, Task.plain])

theorem onHeldCell {f : Cell → Workspace} (hf : ∀ cell, w.Tacit (f cell)) :
    w.Tacit (w.onHeldCell c f) := by
  rw [onHeldCell_eq]
  cases w.heldCell? c with
  | none => exact refl w
  | some cell => exact hf cell

theorem letGo (w : Workspace) (k : SubscriptionId) (ends : Bool) : w.Tacit (w.letGo k ends) := by
  have h := refl w
  unfold Workspace.letGo
  split
  · exact h
  split
  · simp only
    split
    · split <;> split <;> exact h.of_same rfl rfl rfl rfl rfl
    · exact h.of_same rfl rfl rfl rfl rfl
  · exact h

theorem subscribe (w : Workspace) (handle : HandleRef) (reaction : Nat → SlotValue → List Op) :
    w.Tacit (w.subscribe handle reaction) := by
  have h := refl w
  unfold Workspace.subscribe
  simp only
  split <;> split <;> exact h.of_same rfl rfl rfl rfl rfl

theorem operate (hquiet : ∀ deed ∈ w.opDeeds op, deed.command? = none)
    (hkept : ∀ c, .invalidated c ∉ w.opDeeds op) (hdrop : ∀ c, op ≠ .dropCell c) :
    w.Tacit (w.operate op).2 := by
  have h := refl w
  by_cases hreplies : op.Replies
  · rw [operate_of_not_pending hreplies hquiet]
    exact h
  cases op with
  | child parent name start closed =>
    unfold Workspace.operate
    simp only
    split
    · exact h.of_same rfl rfl rfl rfl rfl
    · exact h
  | dropScope s => exact h.of_same rfl rfl rfl rfl rfl
  | dropCell c => exact absurd rfl (hdrop c)
  | ask c name | unreadable e => exact h
  | addDefinition s name p =>
    unfold Workspace.operate
    simp only
    split
    · split
      · exact (h.withTree _).push (by simp [Task.plain])
      · exact h
    · exact h
  | addReader s name p =>
    unfold Workspace.operate
    simp only
    split
    · split
      · exact h.of_same rfl rfl rfl rfl rfl
      · exact h
    · exact h
  | set n value | clear n =>
    unfold Workspace.operate
    simp only
    split
    · exact h.write _ _ _
    · exact h
  | move handle p =>
    cases handle with
    | definition n | reader n =>
      unfold Workspace.operate
      simp only
      split
      · exact h.push (by simp [Task.plain])
      · exact h
  | remove handle =>
    cases handle with
    | definition n | reader n =>
      unfold Workspace.operate
      simp only
      split
      · exact h.push (by simp [Task.plain])
      · exact h
  | subscribe handle reaction => exact subscribe w handle reaction
  | unsubscribe k | detach k => exact letGo w k _
  | newCell position expression scope automatic =>
    refine setScope (putCell ?_ _ _) _ rfl _
    exact { h with held := fun c hc => List.mem_append_left _ hc }
  | setScope c scope =>
    rcases w.operate_setScope c scope with ⟨-, hsame⟩ | ⟨-, -, hdeeds, -⟩
    · rw [hsame]
      exact h
    · exact absurd (by simp [hdeeds]) (hkept c)
  | setExpression c expression => exact onHeldCell fun cell => (h.push (by simp [Task.plain])).batch _ _ _
  | setPosition c position =>
    refine onHeldCell fun cell => ?_
    split
    · exact h
    · exact (h.push (by simp [Task.plain])).batch _ _ _
  | setAutomatic c automatic =>
    refine onHeldCell fun cell => (h.putCell _ _).push ?_
    split <;> simp [Task.plain]
  | recalculate c => exact onHeldCell fun cell => h.push (by simp [Task.plain])
  | recalculateStale c =>
    refine onHeldCell fun cell => ?_
    split
    · exact h.push (by simp [Task.plain])
    · exact h
  | answer | reply => exact absurd trivial hreplies
  | next =>
    unfold Workspace.operate
    simp only
    split
    · exact h
    · exact { h with }

theorem performCell (hcell : w.cell? c = some cell) {driven : CellTask}
    (hquiet : ∀ deed ∈ w.deeds (.cell c driven), deed.command? = none)
    (hkept : .invalidated c ∉ w.deeds (.cell c driven)) :
    w.Tacit (w.performCell c cell driven) := by
  have h := refl w
  cases driven with
  | refresh => exact h.push (by simp [Task.plain])
  | invalidate => exact absurd (by simp [deeds, hcell]) hkept
  | reconsider =>
    unfold Workspace.performCell
    simp only
    split
    · exact h.push (by simp [Task.plain])
    · exact h.putCell _ _
  | evaluate => exact (h.putCell _ _).push (by simp [Task.plain])
  | advance generation => exact advance hcell hquiet
  | enter scope => exact h.batch _ _ _
  | synchronize =>
    unfold Workspace.performCell
    simp only
    split
    · exact h
    · exact (h.putCell _ _).push (by simp [Task.plain])
  | addOutput s name position =>
    unfold Workspace.performCell
    simp only
    split
    · exact h
    split
    · exact h
    · exact (h.withTree _).push (by simp [Task.plain])
  | keepOutput s name slot => exact h.putCell _ _
  | addInput s name position =>
    unfold Workspace.performCell
    simp only
    split
    · exact h
    split
    · exact h
    · exact (h.withTree _).putCell _ _
  | endBatch outer always =>
    refine (h.putCell _ _).push ?_
    split <;> simp [Task.plain]

end Tacit

/-- A task that has no deed about a command, and invalidates no cell, leaves the commands alone. -/
theorem perform_tacit (hsubscriptions : w.subscriptions = #[])
    (hquiet : ∀ deed ∈ w.deeds task, deed.command? = none)
    (hkept : ∀ c, .invalidated c ∉ w.deeds task)
    (hdrop : ∀ c, task ≠ .operate (.dropCell c)) : w.Tacit (w.perform task) := by
  have h := Tacit.refl w
  cases task with
  | operate op => exact .operate hquiet hkept fun c heq => hdrop c (congrArg _ heq)
  | notifyReaders s readers =>
    unfold perform
    cases readers with
    | nil => exact h
    | cons reader rest =>
      simp only
      split <;> exact h.push (by simp [Task.plain])
  | notifyDefinition s slot =>
    unfold perform
    simp only
    split
    · exact h.push (by simp [Task.plain])
    · exact h
  | tell listener value => exact .tell hsubscriptions listener value
  | write s slot value => exact h.write s slot value
  | moveDefinition | moveReader | removeDefinition | removeReader => exact h.spread _ _
  | keepDefinition s slot name => exact h.of_same rfl rfl rfl rfl rfl
  | cancel id => cases hquiet (.cancelled id) List.mem_cons_self
  | cell c driven =>
    cases hcell : w.cell? c with
    | none =>
      rw [perform_cell_of_none hcell]
      exact h
    | some cell =>
      rw [perform_cell hcell]
      exact .performCell hcell hquiet (hkept c)
  | releaseScope s | releaseCell c => exact h

/-! ### Errands -/

theorem not_answered_of_not_replies (hop : ¬op.Replies) : w.answered? op = none := by
  cases op with
  | answer | reply => exact absurd trivial hop
  | _ => rfl

/-- A cell that is not invalidated goes on to wait for its command, at the same stage. -/
theorem errand_perform (horderly : w.InOrder c (task :: w.agenda)) (hmakes : ¬w.Makes c task)
    (hquiet : ∀ deed ∈ w.deeds task, deed.command? = none) (hkept : .invalidated c ∉ w.deeds task)
    (hcell' : (w.perform task).cell? c = some cell') :
    ∃ cell, w.cell? c = some cell ∧ cell'.errand = cell.errand := by
  have hnothing : w.perform task = w → ∃ cell, w.cell? c = some cell ∧ cell'.errand = cell.errand :=
    fun heq => ⟨cell', heq ▸ hcell', rfl⟩
  have hput : ∀ {new : Cell}, (w.putCell c new).cell? c = some cell' → new = cell' :=
    fun hfound => Option.some.inj ((cell?_putCell w c _).symm.trans hfound)
  generalize hw' : w.perform task = w' at hnothing hcell'
  have hturn := hw' ▸ perform_turn hmakes
  cases hturn with
  | leave _ hleaves =>
    obtain ⟨cell, hcell, hsame⟩ := hleaves.cell hcell'
    exact ⟨cell, hcell, hsame.errand_eq⟩
  | renew | reconsider => exact ⟨cell', hcell', rfl⟩
  | invalidate hcell => exact absurd (by simp [deeds, hcell]) hkept
  | @rest cell hcell => exact ⟨cell, hcell, hput hcell' ▸ rfl⟩
  | @evaluate cell hcell =>
    have hnone := (horderly cell hcell).active_of_resumes (by simp [Task.resumes])
    obtain ⟨-, hactive, -⟩ := cell.begin_run fun i => (w.inputValue i).isUnset
    refine ⟨cell, hcell, ?_⟩
    rw [← hput hcell', Cell.errand_eq_none (hactive.trans hnone), Cell.errand_eq_none hnone]
  | @advance cell generation hcell =>
    unfold Workspace.advance at hcell'
    split at hcell'
    · exact ⟨cell', hcell', rfl⟩
    rename_i hgeneration
    obtain rfl : cell.generation = generation := not_not.mp hgeneration
    have hnone := (horderly cell hcell).vacant_of_advance.2
    refine ⟨cell, hcell, ?_⟩
    rw [Cell.errand_eq_none hnone]
    split at hcell'
    · cases hcell.symm.trans hcell'
      exact Cell.errand_eq_none hnone
    rename_i plan hplan
    split at hcell'
    · exact hput hcell' ▸ Cell.errand_eq_none hnone
    · rename_i e hnext
      have hrequest : cell.request? = some e := by
        rw [Cell.request?, hplan, Option.map_some, hnext]
      have hsent : .sent c w.nextCommand cell.leg ∈
          w.deeds (.cell c (.advance cell.generation)) := by
        rw [deeds, hcell]
        simp [hrequest]
      cases hquiet _ hsent
    · exact hput hcell' ▸ Cell.errand_eq_none hnone
  | @answer op id cell outcome hcell hactive hanswers =>
    by_cases hop : op.Replies
    · exact hnothing (hw'.symm.trans (operate_of_not_pending hop hquiet))
    · rw [not_answered_of_not_replies hop] at hanswers
      cases hanswers
  | @unregister cell scope more hcell =>
    rcases w.operate_setScope c scope with ⟨-, hsame⟩ | ⟨-, -, hdeeds, -⟩
    · exact hnothing (hw'.symm.trans hsame)
    · exact absurd (by simp [deeds, hdeeds]) hkept
  | @edit cell expression hcell => exact ⟨cell, hcell, hput hcell' ▸ rfl⟩
  | @awake cell hcell => exact ⟨cell, hcell, hput hcell' ▸ rfl⟩

end Workspace

end MathCanvas
