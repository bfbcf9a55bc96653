import MathCanvas.Proofs.Scope.Fades
import MathCanvas.Proofs.Workspace.Attuned
import MathCanvas.Proofs.Workspace.Orderly

/-!
# Nothing begins while a cell is cleared

A cell that is refreshed clears its outputs before it evaluates. Those who are told of that observe
nothing, and so do those whom they tell in turn: every cell among them is left waiting for an input.
So if nobody but cells and importers listens, and the backend does no more than answer the command
that it is given, no cell begins a run during a refresh of it (`Clearing.reenters_eq_false`).
-/

namespace MathCanvas

/-- A backend that answers a command while it is dispatched or leaves that to others, and does
nothing when one is cancelled. -/
structure Backend.Prompt (backend : Backend) : Prop where
  onDispatch : ∀ id command, ∀ op ∈ backend.onDispatch id command,
    ∃ answer, op = .answer (some id) answer
  onCancel : ∀ id, backend.onCancel id = []

theorem Backend.Prompt.answering {backend : Backend} (h : backend.Prompt) : backend.Answering where
  onDispatch id command op hop := by
    obtain ⟨answer, rfl⟩ := h.onDispatch id command op hop
    trivial
  onCancel id op hop := by simp [h.onCancel] at hop

/-- A cell does not begin to evaluate while an input has no value. -/
theorem Cell.begin_eq_none {cell : Cell} {name : String} {i : CellInput}
    (hi : cell.inputs[name]? = some i) {unset : CellInput → Bool} (hunset : unset i = true) :
    (cell.begin unset).1 = none := by
  have hany : cell.inputs.values.any unset = true :=
    List.any_eq_true.mpr ⟨i, (mem_values_iff_lookup _ _).mpr ⟨name, hi⟩, hunset⟩
  unfold Cell.begin
  cases cell.scope with
  | none => rfl
  | some s =>
    simp only
    split
    · rfl
    · rfl
    · rw [if_pos hany]

namespace Workspace

variable {w w' w'' : Workspace} {c : CellId} {cell new : Cell} {name : String} {s : ScopeId}
  {task : Task} {tasks agenda : List Task}

/-- The cell waits for an input. -/
def Starved (w : Workspace) (c : CellId) : Prop :=
  ∀ cell, w.cell? c = some cell →
    ∃ name p r, cell.reader? name = some (p, r) ∧ w.tree.readerValue p r = .unset

/-- What is done while a cell is cleared. -/
def Clears (w : Workspace) : Task → Prop
  | .write _ _ v => v = .unset
  | .notifyReaders s readers => ∀ r ∈ readers, w.tree.readerValue s r = .unset
  | .tell (.importer _ _) v => v = .unset
  | .tell (.input c name) v => v = .unset ∧ ∀ cell p r, w.cell? c = some cell →
      cell.reader? name = some (p, r) → w.tree.readerValue p r = .unset
  | .cell c .refresh | .cell c .reconsider | .cell c .evaluate => w.Starved c
  | .tell (.client _) _ | .notifyDefinition _ _ | .cell _ .invalidate | .cancel _
  | .releaseScope _ | .releaseCell _ => True
  | _ => False

/-- Nothing takes a value that readers observe, and the cells keep their inputs. -/
structure Fades (w w' : Workspace) : Prop where
  tree : w.tree.Fades w'.tree
  reader : ∀ {c : CellId} {cell' : Cell}, w'.cell? c = some cell' →
    ∃ cell, w.cell? c = some cell ∧ ∀ name, cell'.reader? name = cell.reader? name

theorem Fades.refl (w : Workspace) : w.Fades w :=
  ⟨.refl w.tree, fun hcell => ⟨_, hcell, fun _ => rfl⟩⟩

theorem Starved.fade (h : w.Starved c) (hfades : w.Fades w') : w'.Starved c := by
  intro cell' hcell'
  obtain ⟨cell, hcell, hsame⟩ := hfades.reader hcell'
  obtain ⟨name, p, r, hreader, hunset⟩ := h cell hcell
  exact ⟨name, p, r, (hsame name).trans hreader, hfades.tree.unset hunset⟩

theorem Clears.fade (h : w.Clears task) (hfades : w.Fades w') : w'.Clears task := by
  cases task with
  | notifyReaders s readers => exact fun r hr => hfades.tree.unset (h r hr)
  | tell l v =>
    cases l with
    | input c name =>
      refine ⟨h.1, fun cell' p r hcell' hreader => ?_⟩
      obtain ⟨cell, hcell, hsame⟩ := hfades.reader hcell'
      exact hfades.tree.unset (h.2 cell p r hcell ((hsame name).symm.trans hreader))
    | _ => exact h
  | cell c task =>
    cases task with
    | refresh | reconsider | evaluate => exact Starved.fade h hfades
    | _ => exact h
  | _ => exact h

theorem Fades.withTree {tree : ScopeTree} (h : w.tree.Fades tree) :
    w.Fades ({ w with tree } : Workspace) := ⟨h, fun hcell => ⟨_, hcell, fun _ => rfl⟩⟩

theorem Fades.putCell (hcell : w.cell? c = some cell)
    (hreader : ∀ name, new.reader? name = cell.reader? name) : w.Fades (w.putCell c new) where
  tree := .refl w.tree
  reader {c' cell'} hcell' := by
    rw [cell?, Workspace.putCell, lookup_insert] at hcell'
    split at hcell'
    · rename_i hc
      cases hcell'
      exact ⟨cell, hc ▸ hcell, hreader⟩
    · exact ⟨cell', hcell', fun _ => rfl⟩

theorem fades_sweep (w : Workspace) : w.Fades w.sweep := by
  have htree : w.tree.Fades w.sweep.tree :=
    w.tree_sweep .refl .trans ScopeTree.fades_ignoreReader ScopeTree.fades_remove
  obtain ⟨cells, tree, heq, hcells⟩ := w.exists_sweep_eq
  rw [heq] at htree ⊢
  exact ⟨htree, fun hcell => ⟨_, hcells hcell, fun _ => rfl⟩⟩

/-! ### A task that clears -/

/-- No value is written, and what is put on the agenda only clears. -/
structure Drains (w w' : Workspace) : Prop extends Fades w w' where
  agenda : ∃ tasks, w'.agenda = tasks ++ w.agenda ∧ ∀ task ∈ tasks, w'.Clears task

namespace Drains

theorem of_fades (h : w.Fades w') (hagenda : w'.agenda = w.agenda) : w.Drains w' :=
  ⟨h, [], hagenda, by simp⟩

theorem refl (w : Workspace) : w.Drains w := of_fades (.refl w) rfl

theorem push (h : w.Fades w') (hagenda : w'.agenda = w.agenda)
    (htasks : ∀ task ∈ tasks, w'.Clears task) : w.Drains (w'.push tasks) :=
  ⟨⟨h.tree, h.reader⟩, tasks, congrArg _ hagenda, htasks⟩

theorem write (h : w.tree.Consistent) (s : ScopeId) (id : SlotId) :
    w.Drains (w.write s id .unset) := by
  have htree : w.Fades { w with tree := (w.tree.write s id .unset).2.2 } :=
    .withTree (w.tree.fades_clear s id)
  unfold Workspace.write
  simp only
  split
  · refine push htree rfl ?_
    simp only [List.forall_mem_cons, List.not_mem_nil, false_implies, implies_true, and_true]
    exact ⟨fun r hr => ScopeTree.readerValue_clear h hr, trivial, trivial⟩
  · exact of_fades htree rfl

theorem tellImporter (h : w.tree.Consistent) (s : ScopeId) (name : String) :
    w.Drains (w.tell .unset (.importer s name)) := by
  unfold Workspace.tell
  simp only
  split
  · rename_i scope hs
    refine push (.withTree (ScopeTree.fades_clearImported hs name)) rfl ?_
    simp only [noticeTasks, List.forall_mem_cons, List.not_mem_nil, false_implies, implies_true,
      and_true]
    exact ⟨fun r hr => ScopeTree.readerValue_clearImported h hs hr, trivial⟩
  · exact refl w

theorem tellInput {v : SlotValue} (h : w.Clears (.tell (.input c name) v)) :
    w.Drains (w.tell v (.input c name)) := by
  unfold Workspace.tell
  simp only
  split
  · exact refl w
  rename_i cell hcell
  split
  · exact refl w
  rename_i i hi
  split
  · exact refl w
  have hi' : cell.reader? name = some (i.scope, i.reader) := congrArg _ hi
  have hsame : ∀ n, Cell.reader? { cell with inputs := cell.inputs.insert name { i with last := v } }
      n = cell.reader? n := by
    intro n
    rw [cell.reader?_insert]
    split
    · rename_i hn
      rw [← hn, hi']
    · rfl
  split
  · exact of_fades (.putCell hcell hsame) rfl
  · refine push (.putCell hcell hsame) rfl ?_
    simp only [List.forall_mem_cons, List.not_mem_nil, false_implies, implies_true, and_true]
    refine ⟨fun found hfound => ?_, trivial⟩
    have hlookup := (cell?_putCell w c _).symm.trans hfound
    cases hlookup
    exact ⟨name, i.scope, i.reader, (hsame name).trans hi', h.2 cell i.scope i.reader hcell hi'⟩

theorem performCell (hcell : w.cell? c = some cell) {driven : CellTask}
    (h : w.Clears (.cell c driven)) : w.Drains (w.performCell c cell driven) := by
  cases driven with
  | refresh =>
    refine push (.refl w) rfl ?_
    simp only [List.forall_mem_cons, List.not_mem_nil, false_implies, implies_true, and_true]
    exact ⟨trivial, h⟩
  | invalidate =>
    refine push (.putCell hcell fun _ => rfl) rfl fun task htask => ?_
    rcases List.mem_append.mp htask with htask | htask
    · obtain ⟨id, -, rfl⟩ := List.mem_map.mp htask
      trivial
    · obtain ⟨o, -, rfl⟩ := List.mem_map.mp htask
      rfl
  | reconsider =>
    unfold Workspace.performCell
    simp only
    split
    · exact push (.refl w) rfl (List.forall_mem_singleton.mpr h)
    · exact of_fades (.putCell hcell fun _ => rfl) rfl
  | evaluate =>
    obtain ⟨name, p, r, hreader, hunset⟩ := h cell hcell
    obtain ⟨i, hi, heq⟩ := Option.map_eq_some_iff.mp hreader
    cases heq
    have hnone : (cell.begin fun i => (w.inputValue i).isUnset).1 = none :=
      Cell.begin_eq_none hi (by rw [inputValue, hunset]; rfl)
    have hsame : ∀ n,
        (cell.begin fun i => (w.inputValue i).isUnset).2.reader? n = cell.reader? n := by
      intro n
      rw [Cell.reader?, (cell.begin_same _).1, Cell.reader?]
    refine push (.putCell hcell hsame) rfl fun task htask => ?_
    obtain ⟨g, hg, -⟩ := List.mem_map.mp htask
    cases hnone.symm.trans (Option.mem_toList.mp hg)
  | _ => exact h.elim

/-- A task that clears sets off others that clear. -/
theorem perform (hclears : w.Clears task) (hconsistent : w.tree.Consistent)
    (hsubscriptions : w.subscriptions = #[]) (hcancel : ∀ id, w.backend.onCancel id = [])
    (hattuned : w.Attuned (task :: agenda)) : w.Drains (w.perform task) := by
  cases task with
  | write s id v =>
    obtain rfl : v = .unset := hclears
    exact write hconsistent s id
  | notifyReaders s readers =>
    cases readers with
    | nil => exact refl w
    | cons reader rest =>
      have hfirst : w.tree.readerValue s reader = .unset := hclears reader List.mem_cons_self
      have hrest : w.Clears (.notifyReaders s rest) :=
        fun r hr => hclears r (List.mem_cons_of_mem _ hr)
      unfold Workspace.perform
      simp only
      split
      · rename_i value listeners hnotice
        obtain ⟨rfl, rfl⟩ := ScopeTree.eq_of_readerNotice? hnotice
        refine push (.refl w) rfl (List.forall_mem_append.mpr
          ⟨fun task htask => ?_, List.forall_mem_singleton.mpr hrest⟩)
        obtain ⟨l, hl, rfl⟩ := List.mem_map.mp htask
        rw [hfirst]
        cases l with
        | importer s' n => rfl
        | client k => trivial
        | input c n =>
          refine ⟨rfl, fun cell p r hcell hreader => ?_⟩
          -- the input of this name has the reader that tells the cell
          rcases hattuned.current hl hcell with hsame | ⟨hnone, -⟩
          · cases hreader.symm.trans hsame
            exact hfirst
          · rw [hnone] at hreader
            cases hreader
      · exact push (.refl w) rfl (List.forall_mem_singleton.mpr hrest)
  | notifyDefinition s slot =>
    unfold Workspace.perform
    simp only
    split
    · rename_i value listeners hnotice
      refine push (.refl w) rfl fun task htask => ?_
      obtain ⟨l, hl, rfl⟩ := List.mem_map.mp htask
      obtain ⟨k, rfl⟩ := hattuned.silent (ScopeTree.eq_of_definitionNotice? hnotice ▸ hl)
      trivial
    · exact refl w
  | tell l v =>
    cases l with
    | importer s name =>
      obtain rfl : v = .unset := hclears
      exact tellImporter hconsistent s name
    | input c name => exact tellInput hclears
    | client k =>
      show w.Drains (w.tell v (.client k))
      unfold Workspace.tell
      rw [hsubscriptions]
      exact refl w
  | cell c driven =>
    cases hcell : w.cell? c with
    | none =>
      rw [perform_cell_of_none hcell]
      exact refl w
    | some cell =>
      rw [perform_cell hcell]
      exact performCell hcell hclears
  | cancel id =>
    have hsame : w.Fades (w.record (.cancelled id)) := ⟨.refl _, fun h => ⟨_, h, fun _ => rfl⟩⟩
    unfold Workspace.perform
    simp only
    split
    · refine push hsame rfl ?_
      simp [record, hcancel]
    · refine push ⟨hsame.tree, hsame.reader⟩ rfl ?_
      simp [record, hcancel]
  | releaseScope s | releaseCell c => exact refl w
  | operate op | moveDefinition s slot p | moveReader s r p | removeDefinition s slot
  | removeReader s r | keepDefinition s slot n => exact hclears.elim

end Drains

/-! ### Refreshes in progress -/

/-- Whatever stands before the second half of a refresh of the cell only clears. -/
def Clearing (w : Workspace) (c : CellId) (agenda : List Task) : Prop :=
  ∀ pre later post, agenda = pre ++ later :: post → later.resumes c = true →
    ∀ task ∈ pre, w.Clears task

/-- No refresh of the cell is in progress. -/
theorem clearing_of_none (h : agenda.any (Task.resumes c) = false) : w.Clearing c agenda := by
  rintro pre later post rfl hlater
  simp [hlater] at h

/-- The second half of a refresh is the first task. -/
theorem clearing_cons (h : agenda.any (Task.resumes c) = false) : w.Clearing c (task :: agenda) := by
  intro pre later post heq hlater
  cases pre with
  | nil => simp
  | cons first rest =>
    rw [(List.cons.inj heq).2] at h
    simp [hlater] at h

theorem any_resumes_advance (w : Workspace) (c c' : CellId) (cell : Cell) (generation : Nat) :
    (w.advance c' cell generation).agenda.any (Task.resumes c) = w.agenda.any (Task.resumes c) := by
  unfold Workspace.advance
  split
  · rfl
  split
  · rfl
  split
  · rfl
  · simp [Workspace.dispatch, Workspace.push, Workspace.record, Workspace.putCell, Task.resumes]
  · simp [Workspace.push, Workspace.putCell, Task.resumes]

theorem any_resumes_receive (w : Workspace) (c c' : CellId) (id : CommandId) (outcome : Outcome) :
    (w.receive id c' outcome).agenda.any (Task.resumes c) = w.agenda.any (Task.resumes c) := by
  unfold Workspace.receive
  split
  · rfl
  split
  · rfl
  simp only
  split
  · rfl
  split
  · rfl
  · simp [Workspace.push, Workspace.putCell, Task.resumes]

namespace Clearing

theorem fade (h : w.Clearing c agenda) (hfades : w.Fades w') : w'.Clearing c agenda :=
  fun pre later post heq hlater task htask => (h pre later post heq hlater task htask).fade hfades

/-- Tasks that clear are put before the others. -/
theorem append (h : w.Clearing c agenda) (htasks : ∀ task ∈ tasks, w.Clears task) :
    w.Clearing c (tasks ++ agenda) := by
  intro pre later post heq hlater task htask
  rcases List.append_eq_append_iff.mp heq with ⟨between, rfl, hagenda⟩ | ⟨between, rfl, -⟩
  · rcases List.mem_append.mp htask with htask | htask
    · exact htasks task htask
    · exact h between later post hagenda hlater task htask
  · exact htasks task (List.mem_append_left _ htask)

theorem tail (h : w.Clearing c (task :: agenda)) : w.Clearing c agenda :=
  fun pre later post heq hlater task' htask' =>
    h (task :: pre) later post (congrArg _ heq) hlater task' (List.mem_cons_of_mem _ htask')

/-- A task before the second half of a refresh clears. -/
theorem head (h : w.Clearing c (task :: agenda)) (hany : agenda.any (Task.resumes c) = true) :
    w.Clears task := by
  obtain ⟨later, hmem, hlater⟩ := List.any_eq_true.mp hany
  obtain ⟨pre, post, rfl⟩ := List.append_of_mem hmem
  exact h (task :: pre) later post rfl hlater task List.mem_cons_self

/-- A refresh of the cell begins at most. -/
theorem of_turn (hturn : w.Turn c task w') (hnone : w.agenda.any (Task.resumes c) = false) :
    w'.Clearing c w'.agenda := by
  have hidle : ∀ {more : List Task}, Idle c more →
      (more ++ w.agenda).any (Task.resumes c) = false := by
    intro more hmore
    rw [List.any_append, hmore.any_resumes, hnone, Bool.or_false]
  cases hturn with
  | leave _ hleaves =>
    obtain ⟨tasks, hagenda, htasks⟩ := hleaves.agenda
    exact clearing_of_none (hagenda ▸ hidle htasks)
  | renew _ _ _ hmore =>
    show Workspace.Clearing _ c ([.cell c .invalidate] ++ .cell c _ :: (_ ++ w.agenda))
    refine append (clearing_cons (hidle hmore)) fun task htask => ?_
    obtain rfl := List.mem_singleton.mp htask
    trivial
  | invalidate => exact clearing_of_none (hidle (by simp [idle_cancelTasks, Task.drives]))
  | reconsider => exact clearing_cons hnone
  | rest => exact clearing_of_none hnone
  | evaluate =>
    refine clearing_of_none ?_
    show (List.map _ _ ++ w.agenda).any _ = false
    rw [List.any_append, hnone, Bool.or_false, List.any_map]
    simp [Task.resumes]
  | advance => exact clearing_of_none ((any_resumes_advance w c c _ _).trans hnone)
  | answer outcome => exact clearing_of_none ((any_resumes_receive _ c c _ outcome).trans hnone)
  | unregister _ hmore =>
    refine clearing_of_none (hidle ?_)
    simp [idle_cancelTasks, hmore]
  | @edit cell =>
    have hbatch : Idle c [.cell c .synchronize, .cell c (.endBatch cell.suspended true),
        .releaseCell c] := by simp [Task.drives, CellTask.drives]
    have hnone := hidle hbatch
    exact clearing_of_none hnone
  | awake =>
    have hrelease : Idle c [.releaseCell c] := by simp [Task.drives]
    exact clearing_cons (hidle hrelease)

/-- One task keeps refreshes clear. -/
theorem perform (h : w.Clearing c (task :: w.agenda)) (hconsistent : w.tree.Consistent)
    (hsubscriptions : w.subscriptions = #[]) (hcancel : ∀ id, w.backend.onCancel id = [])
    (hattuned : w.Attuned (task :: w.agenda)) :
    (w.perform task).Clearing c (w.perform task).agenda := by
  cases hany : w.agenda.any (Task.resumes c) with
  | true =>
    have hdrains := Drains.perform (h.head hany) hconsistent hsubscriptions hcancel hattuned
    obtain ⟨tasks, hagenda, htasks⟩ := hdrains.agenda
    exact hagenda ▸ (h.tail.fade hdrains.toFades).append htasks
  | false =>
    by_cases hmakes : w.Makes c task
    · obtain ⟨rfl, position, expression, scope, automatic, rfl⟩ := hmakes
      obtain ⟨-, -, -, -, tasks, -, -, -, -, hagenda, htasks⟩ :=
        w.operate_newCell position expression scope automatic
      refine clearing_of_none ?_
      show ((w.operate _).2.agenda).any _ = false
      rw [hagenda, List.any_append, htasks.any_resumes, hany, Bool.or_false]
    · exact of_turn (perform_turn hmakes) hany

/-- No cell begins a run during a refresh of it. -/
theorem reentry_eq_false (h : ∀ c, w.Clearing c (task :: agenda)) :
    w.reentry agenda task = false := by
  unfold reentry
  split
  · rename_i c
    cases hany : agenda.any (Task.resumes c) with
    | false => rfl
    | true =>
      have hstarved : w.Starved c := (h c).head hany
      cases hcell : w.cell? c with
      | none => rfl
      | some cell =>
        obtain ⟨name, p, r, hreader, hunset⟩ := hstarved cell hcell
        obtain ⟨i, hi, heq⟩ := Option.map_eq_some_iff.mp hreader
        cases heq
        have hnone : (cell.begin fun i => (w.inputValue i).isUnset).1 = none :=
          Cell.begin_eq_none hi (by rw [inputValue, hunset]; rfl)
        rw [Option.any_some, hnone]
        rfl
  · rfl

theorem sweep (h : w.Clearing c w.agenda) : w.sweep.Clearing c w.sweep.agenda :=
  w.sweep_agenda ▸ h.fade w.fades_sweep

theorem call (w : Workspace) (c : CellId) (op : Op) : (w.call op).Clearing c (w.call op).agenda :=
  clearing_of_none (by simp [Workspace.call, Task.resumes])

end Clearing

end Workspace

end MathCanvas
