import MathCanvas.Proofs.Workspace.Outcomes
import MathCanvas.Proofs.Workspace.WellKept

/-!
# Cells that are moved

A cell that is moved takes its definitions along first and its inputs after them, and meanwhile it
only notes what its inputs observe. If none of them has observed anything else, it stays as it was,
with the values of its definitions. Otherwise it evaluates again (`Workspace.Chronicle.moves`). What
its inputs observe may differ only for a moment: the cell evaluates even if they observe in the end
what they did before (`Workspace.reevaluated_in_passing`).
-/

namespace MathCanvas

/-- A cell at another position, with what it had. -/
structure Cell.Relocated (cell : Cell) (p : Position) (moved : Cell) : Prop where
  same : moved = { cell with position := p, inputs := moved.inputs, outputs := moved.outputs }
  output : ∀ name : String, moved.outputs[name]? = cell.outputs[name]?
  reader : ∀ name, moved.reader? name = cell.reader? name

/-- A cell that is being moved. It has taken note of nothing yet, or something has been `seen`. -/
structure Cell.EnRoute (cell : Cell) (p : Position) (seen : Prop) (now : Cell) : Prop where
  same : now = { cell with
    position := p
    suspended := true
    inputs := now.inputs
    outputs := now.outputs
    dirty := now.dirty }
  output : ∀ name : String, now.outputs[name]? = cell.outputs[name]?
  reader : ∀ name, now.reader? name = cell.reader? name
  clean : now.dirty = false → ∀ name : String, now.inputs[name]? = cell.inputs[name]?
  dirty : now.dirty = true → seen

section EnRoute

variable {cell now : Cell} {p : Position} {seen seen' : Prop} {name : String} {s : ScopeId}
  {x : Nat} {k : Role}

theorem Cell.EnRoute.mono (h : cell.EnRoute p seen now) (hseen : seen → seen') :
    cell.EnRoute p seen' now :=
  { h with dirty := fun hdirty => hseen (h.dirty hdirty) }

theorem Cell.EnRoute.exists_eq (h : cell.EnRoute p seen now) : ∃ inputs outputs dirty,
    now = { cell with position := p, suspended := true, inputs, outputs, dirty } :=
  ⟨_, _, _, h.same⟩

theorem Cell.EnRoute.has_iff (h : cell.EnRoute p seen now) :
    now.Has name s x k ↔ cell.Has name s x k := by
  cases k with
  | definition => rw [Cell.Has, Cell.Has, h.output]
  | reader => rw [Cell.Has, Cell.Has, h.reader]

theorem Cell.EnRoute.wants_eq (h : cell.EnRoute p seen now) : now.wants k = cell.wants k := by
  rw [h.same]
  cases k <;> rfl

/-- A cell that has what its expression names, and nothing else, is in step. -/
theorem Cell.EnRoute.inStep (h : cell.EnRoute p seen now)
    (hwants : ∀ name k, (∃ s x, cell.Has name s x k) ↔ name ∈ cell.wants k) :
    cell.EnRoute p seen now.inStep := by
  have hknown : ∀ {name : String} {k : Role}, (∃ s x, now.Has name s x k) → name ∈ now.wants k := by
    rintro n k ⟨s, x, has⟩
    rw [h.wants_eq]
    exact (hwants n k).mp ⟨s, x, h.has_iff.mp has⟩
  obtain ⟨houtput, hinput⟩ := Cell.lookup_inStep hknown
  refine ⟨?_, fun n => (houtput n).trans (h.output n), fun n => ?_,
    fun hclean n => (hinput n).trans (h.clean hclean n), h.dirty⟩
  · obtain ⟨inputs, outputs, dirty, hnow⟩ := h.exists_eq
    subst hnow
    rfl
  · rw [Cell.reader?, hinput, ← Cell.reader?, h.reader]

/-- The cell takes note of news. -/
theorem Cell.EnRoute.told (h : cell.EnRoute p seen now) {i : CellInput} {v : SlotValue}
    (hi : now.inputs[name]? = some i) (hseen : now.dirty = false → seen) :
    cell.EnRoute p seen { now with
      inputs := now.inputs.insert name { i with last := v }
      dirty := now.dirty || now.suspended } := by
  have hsuspended : now.suspended = true := by rw [h.same]
  refine ⟨?_, h.output, fun n => ?_, fun hclean => ?_, fun _ => ?_⟩
  · obtain ⟨inputs, outputs, dirty, hnow⟩ := h.exists_eq
    subst hnow
    simp only [Bool.or_true]
  · refine (now.reader?_insert name n _).trans ?_
    split
    · rename_i hn
      subst hn
      rw [← h.reader, Cell.reader?, hi, Option.map_some]
    · exact h.reader n
  · simp only [hsuspended, Bool.or_true, reduceCtorEq] at hclean
  · cases hdirty : now.dirty with
    | true => exact h.dirty hdirty
    | false => exact hseen hdirty

end EnRoute

theorem Cell.automatic_begin (cell : Cell) (unset : CellInput → Bool) :
    (cell.begin unset).2.automatic = cell.automatic := by
  unfold Cell.begin
  simp only
  split
  · rfl
  split
  · rfl
  · rfl
  · split <;> rfl

namespace Workspace

variable {w v : Workspace} {backend : Backend} {may : Workspace → Op → Prop} {deeds : List Deed}
  {c : CellId} {cell cell' : Cell} {name : String} {i : CellInput} {o : CellOutput} {task : Task}
  {rest : List Task} {p : Position}

/-- A definition of a cell keeps its value in a step that does not write it. -/
theorem Chronicle.outputValue_step (h : Chronicle backend may deeds w) (hprompt : backend.Prompt)
    (hagenda : w.agenda = task :: rest) (hcell : w.cell? c = some cell)
    (ho : cell.outputs[name]? = some o) (hcell' : w.step.cell? c = some cell')
    (ho' : cell'.outputs[name]? = some o) (hwrite : ∀ v, task ≠ .write o.scope o.slot v) :
    w.step.outputValue o = w.outputValue o :=
  (h.wellKept hprompt).outputValue_step hagenda ((h.step hagenda).posted hprompt) hcell ho hcell' ho'
    hwrite

/-! ### A cell that is being moved -/

/-- A cell in a scope that has what its expression names and remembers what its inputs observe. Its
command, if it has one, has been sent. -/
structure Equipped (w : Workspace) (cell : Cell) : Prop where
  attached : cell.scope ≠ none
  awake : cell.suspended = false
  clean : cell.dirty = false
  wants : ∀ name k, (∃ s x, cell.Has name s x k) ↔ name ∈ cell.wants k
  active : ∀ id, cell.active = some id → id < w.nextCommand
  last : ∀ {name : String} {i : CellInput}, cell.inputs[name]? = some i →
    i.last.same (w.inputValue i)

/-- When nothing is in progress, every cell in a scope is so. -/
theorem Chronicle.equipped (h : Chronicle backend may deeds w) (hprompt : backend.Prompt)
    (hquiet : w.agenda = []) (hcell : w.cell? c = some cell) (hattached : cell.scope ≠ none) :
    w.Equipped cell := by
  obtain ⟨hsecluded, -, past, hrun⟩ := h.exists_run hprompt
  have hawake : cell.suspended = false :=
    (hsecluded.batched c).not_suspended (by simp [hquiet]) hcell
  exact {
    attached := hattached
    awake := hawake
    clean := hrun.not_dirty hcell hawake
    wants := h.has_iff_mem_wants hprompt (by simp [hquiet]) hcell hattached
    active := fun id => h.lt_nextCommand hprompt hcell
    last := (h.wellKept hprompt).last_same (by simp [hquiet]) (by simp [hquiet]) hcell }

/-! ### Steps -/

/-- Only a cell whose command is answered changes. -/
theorem cell?_receive {id : CommandId}
    (hactive : ∀ cell, w.cell? c = some cell → cell.active ≠ some id) (c' : CellId)
    (outcome : Outcome) : (w.receive id c' outcome).cell? c = w.cell? c := by
  unfold receive
  split
  · rfl
  rename_i before hbefore
  split
  · rfl
  rename_i hmatch
  have hne : c' ≠ c := by
    rintro rfl
    exact hactive before hbefore (not_not.mp hmatch)
  have hput : ∀ new, (w.putCell c' new).cell? c = w.cell? c := fun _ =>
    lookup_insert_of_ne _ _ hne
  simp only
  split
  · exact hput _
  split <;> exact hput _

theorem cell?_answer {id : CommandId}
    (hactive : ∀ cell, w.cell? c = some cell → cell.active ≠ some id) (answer : Answer) :
    (w.operate (.answer (some id) answer)).2.cell? c = w.cell? c := by
  unfold operate
  simp only
  split
  · rename_i hid
    cases hid
    unfold answerCommand
    rcases w.commands.take id with ⟨found, commands⟩
    have hreceive : ∀ c' outcome,
        (({ w with commands } : Workspace).receive id c' outcome).cell? c = w.cell? c :=
      fun c' outcome => cell?_receive (w := { w with commands }) hactive c' outcome
    cases found with
    | none => rfl
    | some command =>
      cases answer with
      | outcome | computed => exact hreceive _ _
      | unreadable => rfl
  · rfl

/-- What a step sets off is done before what is on the agenda already. -/
theorem Secluded.exists_step_agenda (h : v.Secluded) (hagenda : v.agenda = task :: rest) :
    ∃ tasks, v.step.agenda = tasks ++ rest := by
  obtain ⟨-, tasks, htasks, -⟩ := ({ v with agenda := rest } : Workspace).perform_operations
    h.subscriptions h.prompt task
  exact ⟨tasks, by rw [step_of_agenda hagenda, sweep_agenda, htasks]⟩

/-- What becomes of a cell in a step that is not an operation of the client. -/
theorem Chronicle.exists_alters {now : Cell} (h : Chronicle backend may deeds v)
    (hprompt : backend.Prompt) (hagenda : v.agenda = task :: rest)
    (hop : ∀ op, task = .operate op → ∃ id answer, op = .answer (some id) answer)
    (hnow : v.cell? c = some now) : ∃ next, v.step.cell? c = some next ∧
      (({ v with agenda := rest } : Workspace).perform task).cell? c = some next ∧
      ({ v with agenda := rest } : Workspace).Alters c now task next := by
  obtain ⟨hsecluded, -, -⟩ := h.exists_run hprompt
  have hdrop : task ≠ .operate (.dropCell c) := by
    rintro rfl
    obtain ⟨id, answer, heq⟩ := hop _ rfl
    cases heq
  have hcell : ({ v with agenda := rest } : Workspace).cell? c = some now := hnow
  have hpresent : (({ v with agenda := rest } : Workspace).perform task).cell? c ≠ none :=
    cell?_perform_ne_none (w := { v with agenda := rest }) hsecluded.subscriptions
      hsecluded.prompt (by rw [hcell]; exact Option.some_ne_none now)
  obtain ⟨next, hperformed⟩ := Option.ne_none_iff_exists'.mp hpresent
  exact ⟨next, hsecluded.cell?_step hagenda hdrop hperformed, hperformed,
    perform_alters hcell (not_makes (hsecluded.numbered hnow) task) hperformed⟩

/-- What is done while a cell is being moved leaves it on its way. -/
theorem Chronicle.enRoute_step {now : Cell} {seen : Prop} (h : Chronicle backend may deeds v)
    (hprompt : backend.Prompt) (hagenda : v.agenda = task :: rest)
    (hworks : task.works c = false) (hbatches : task.batches c = false)
    (hop : ∀ op, task = .operate op →
      ∃ id answer, op = .answer (some id) answer ∧ now.active ≠ some id)
    (hwants : ∀ name k, (∃ s x, cell.Has name s x k) ↔ name ∈ cell.wants k)
    (hattached : now.scope ≠ none) (hnow : v.cell? c = some now) (h' : cell.EnRoute p seen now)
    (hseen : ∀ {name : String} {i : CellInput} {u : SlotValue}, task = .tell (.input c name) u →
      now.inputs[name]? = some i → i.last.valueEq u = false → now.dirty = false → seen) :
    ∃ next, v.step.cell? c = some next ∧ cell.EnRoute p seen next := by
  have hanswer : ∀ op, task = .operate op → ∃ id answer, op = .answer (some id) answer := by
    intro op heq
    obtain ⟨id, answer, rfl, -⟩ := hop op heq
    exact ⟨id, answer, rfl⟩
  obtain ⟨next, hnext, hperformed, halters⟩ := h.exists_alters hprompt hagenda hanswer hnow
  have hcell : ({ v with agenda := rest } : Workspace).cell? c = some now := hnow
  refine ⟨next, hnext, ?_⟩
  by_cases hanswers : ∃ op, task = .operate op
  · obtain ⟨op, rfl⟩ := hanswers
    obtain ⟨id, answer, rfl, hactive⟩ := hop op rfl
    rw [perform, cell?_answer (fun found hfound => ?_), hcell] at hperformed
    · cases hperformed
      exact h'
    · cases hcell.symm.trans hfound
      exact hactive
  have hhas : ∀ {driven name k}, task = .cell c driven → driven.grants? = some (name, k) →
      ∃ s x, now.Has name s x k := by
    rintro driven name k rfl hgrants
    have hmem := (h.wellKept hprompt).mem_wants_of_grants hagenda hgrants hnow hattached
    rw [h'.wants_eq] at hmem
    obtain ⟨s, x, has⟩ := (hwants name k).mpr hmem
    exact ⟨s, x, h'.has_iff.mpr has⟩
  by_cases hsynchronize : task = .cell c .synchronize
  · subst hsynchronize
    rw [perform_cell hcell] at hperformed
    obtain ⟨s, hs⟩ := Option.ne_none_iff_exists'.mp hattached
    unfold performCell at hperformed
    simp only [hs] at hperformed
    obtain ⟨tasks, heq, -⟩ := ({ v with agenda := rest } : Workspace).synchronize_spec c now s
    rw [heq] at hperformed
    cases (cell?_putCell ..).symm.trans hperformed
    exact h'.inStep hwants
  cases halters with
  | same => exact h'
  | told hi hnews => exact h'.told hi (hseen rfl hi hnews)
  | invalidate | rest | evaluate | finish | send | assign =>
    simp [Task.works, Task.rank] at hworks
  | enter | endBatch => simp [Task.batches] at hbatches
  | fail | drop | answer | unregister | edit | move | automate => exact absurd ⟨_, rfl⟩ hanswers
  | synchronize => exact absurd rfl hsynchronize
  | keepOutput =>
    obtain ⟨s, x, has⟩ := hhas rfl rfl
    have hmissing := ((h.posted hprompt).keeping (hagenda ▸ List.mem_cons_self) hnow).2.1
    cases has.symm.trans hmissing
  | addInput hmissing =>
    obtain ⟨s, x, has⟩ := hhas rfl rfl
    obtain ⟨i, hi, -⟩ := Cell.has_reader_iff.mp has
    cases hi.symm.trans hmissing

/-! ### Cells on their way -/

/-- The tasks with which a move ends. -/
def landing (c : CellId) : List Task := [.cell c (.endBatch false false), .releaseCell c]

/-- The cell is on its way, and `soon` is what is done before it arrives. -/
structure Moving (w : Workspace) (c : CellId) (cell : Cell) (p : Position) (seen : Prop)
    (v : Workspace) (soon : List Task) : Prop where
  agenda : v.agenda = soon ++ landing c
  present : ∃ now, v.cell? c = some now ∧ cell.EnRoute p seen now
  workless : Workless c soon
  /-- Only commands that have been sent meanwhile are answered. -/
  operations : ∀ op, .operate op ∈ soon →
    ∃ id answer, op = .answer (some id) answer ∧ w.nextCommand ≤ id
  nextCommand : w.nextCommand ≤ v.nextCommand
  unwritten : ∀ {name : String} {o : CellOutput}, cell.outputs[name]? = some o →
    ∀ u, .write o.scope o.slot u ∉ soon
  outputs : ∀ {name : String} {o : CellOutput}, cell.outputs[name]? = some o →
    v.outputValue o = w.outputValue o

/-- An input of the cell observes something else than it did. -/
def Differs (w : Workspace) (cell : Cell) (v : Workspace) : Prop :=
  ∃ (name : String) (i : CellInput), cell.inputs[name]? = some i ∧
    ¬(v.inputValue i).same (w.inputValue i)

namespace Moving

variable {now : Cell} {seen seen' : Prop} {soon : List Task}

theorem mono (h : w.Moving c cell p seen v soon)
    (hseen : seen → seen') : w.Moving c cell p seen' v soon :=
  { h with present := h.present.imp fun _ hnow => ⟨hnow.1, hnow.2.mono hseen⟩ }

/-- An operation on the way answers a command, but not the one of the cell. -/
theorem answers (h : w.Moving c cell p seen v (task :: soon)) (hw : w.Equipped cell)
    (hroute : cell.EnRoute p seen now) {op : Op} (htask : task = .operate op) :
    ∃ id answer, op = .answer (some id) answer ∧ now.active ≠ some id := by
  obtain ⟨id, answer, rfl, hid⟩ := h.operations op (htask ▸ List.mem_cons_self)
  refine ⟨id, answer, rfl, fun hactive => ?_⟩
  rw [hroute.same] at hactive
  exact absurd (hw.active id hactive) (Nat.not_lt.mpr hid)

theorem works_eq_false (h : w.Moving c cell p seen v (task :: soon)) : task.works c = false :=
  (workless_cons.mp h.workless).1

/-- Another batch of the cell is not begun on the way. -/
theorem batches_eq_false (h : w.Moving c cell p seen v (task :: soon)) (hv : v.Secluded) :
    task.batches c = false := by
  have hbatched := hv.batched c
  rw [h.agenda, List.cons_append] at hbatched
  have hends : (Task.cell c (.endBatch false false)).batches c = true := by simp [Task.batches]
  refine Bool.eq_false_iff.mpr fun htrue => ?_
  exact not_mem_of_countP_batches (hbatched.countP_tail htrue) hends (by simp [landing])

/-- Nothing on the way sets the cell to work. -/
theorem not_rouses (h : w.Moving c cell p seen v (task :: soon)) (hw : w.Equipped cell)
    (hv : v.Secluded) (hnow : v.cell? c = some now) (hroute : cell.EnRoute p seen now)
    (rest : List Task) : ¬({ v with agenda := rest } : Workspace).Rouses c task := by
  intro hroused
  cases hroused with
  | own idle =>
    have hworks := h.works_eq_false
    simp [Task.works, idle] at hworks
  | enter =>
    have hbatches := h.batches_eq_false hv
    simp [Task.batches] at hbatches
  | told u hfound _ hawake =>
    cases hnow.symm.trans hfound
    rw [hroute.same] at hawake
    cases hawake
  | answered hfound hactive hanswers =>
    cases hnow.symm.trans hfound
    obtain ⟨id, answer, rfl, hother⟩ := h.answers hw hroute rfl
    unfold answering? at hanswers
    simp only at hanswers
    split at hanswers
    · cases hanswers
      exact hother hactive
    · cases hanswers

/-- The first news that the cell takes note of is that an input observes something else. -/
theorem differs_of_news {u : SlotValue} (h : w.Moving c cell p seen v (task :: soon))
    (hw : w.Equipped cell) (hnan : ∀ {name : String} {i : CellInput},
      cell.inputs[name]? = some i → (w.inputValue i).hasNaN = false)
    (hv : Chronicle backend may deeds v) (hprompt : backend.Prompt) (hnow : v.cell? c = some now)
    (hroute : cell.EnRoute p seen now) (htask : task = .tell (.input c name) u)
    (hi : now.inputs[name]? = some i) (hnews : i.last.valueEq u = false)
    (hclean : now.dirty = false) : w.Differs cell v := by
  have hbefore : cell.inputs[name]? = some i := (hroute.clean hclean name).symm.trans hi
  have htold : u.same (v.inputValue i) := (hv.informed hprompt).told
    (by rw [h.agenda, htask]; rfl) hnow hi ((hv.wellKept hprompt).readerValue?_input hnow hi)
  refine ⟨name, i, hbefore, fun hsame => ?_⟩
  have hequal : (w.inputValue i).valueEq u = true := SlotValue.valueEq_of_same (hnan hbefore)
    (SlotValue.same_symm (SlotValue.same_trans htold hsame))
  have hlast : (w.inputValue i).valueEq i.last = true :=
    SlotValue.valueEq_of_same (hnan hbefore) (SlotValue.same_symm (hw.last hbefore))
  rw [SlotValue.valueEq_trans ((SlotValue.valueEq_comm _ _).trans hlast) hequal] at hnews
  cases hnews

/-- Every step brings the cell further on its way. -/
theorem step (h : w.Moving c cell p seen v (task :: soon)) (hw : w.Equipped cell)
    (hnan : ∀ {name : String} {i : CellInput}, cell.inputs[name]? = some i →
      (w.inputValue i).hasNaN = false)
    (hv : Chronicle backend may deeds v) (hprompt : backend.Prompt) :
    ∃ tasks, w.Moving c cell p (seen ∨ w.Differs cell v) v.step (tasks ++ soon) := by
  obtain ⟨hsecluded, -, -⟩ := hv.exists_run hprompt
  obtain ⟨now, hnow, hroute⟩ := h.present
  have hagenda : v.agenda = task :: (soon ++ landing c) := h.agenda
  set rest := soon ++ landing c
  have hop : ∀ op, task = .operate op → ∃ id answer, op = .answer (some id) answer ∧
      now.active ≠ some id := fun op => h.answers hw hroute
  have hattached : now.scope ≠ none := by
    rw [hroute.same]
    exact hw.attached
  have hroused := h.not_rouses hw hsecluded hnow hroute rest
  obtain ⟨next, hnext, hroute'⟩ := hv.enRoute_step hprompt hagenda h.works_eq_false
    (h.batches_eq_false hsecluded) hop hw.wants hattached hnow
    (hroute.mono (.inl : seen → seen ∨ w.Differs cell v)) fun htask hi hnews hclean =>
      .inr (h.differs_of_news hw hnan hv hprompt hnow hroute htask hi hnews hclean)
  have houtput : ∀ {name : String} {o : CellOutput}, cell.outputs[name]? = some o →
      now.outputs[name]? = some o := fun ho => (hroute.output _).trans ho
  obtain ⟨hle, tasks, htasks, hnew⟩ := ({ v with agenda := rest } : Workspace).perform_operations
    hsecluded.subscriptions hsecluded.prompt task
  refine ⟨tasks, ?_, ⟨next, hnext, hroute'⟩, ?_, fun op hmem => ?_, ?_, fun ho u hmem => ?_,
    fun ho => ?_⟩
  · rw [step_of_agenda hagenda, sweep_agenda, htasks, List.append_assoc]
  · have hreplies : ∀ op, task = .operate op → op.Replies := by
      intro op heq
      obtain ⟨id, answer, rfl, -⟩ := hop op heq
      trivial
    obtain ⟨tasks', htasks', hworkless⟩ :=
      (perform_rouses (w := { v with agenda := rest }) c fun op heq => .inl (hreplies op heq)).agenda
    obtain rfl : tasks' = tasks := List.append_cancel_right (htasks'.symm.trans htasks)
    exact workless_append.mpr ⟨hworkless.resolve_left hroused, (workless_cons.mp h.workless).2⟩
  · rcases List.mem_append.mp hmem with hmem | hmem
    · obtain ⟨⟨answer, heq⟩, -⟩ := hnew op hmem
      exact ⟨_, answer, heq, h.nextCommand⟩
    · exact h.operations op (List.mem_cons_of_mem _ hmem)
  · obtain ⟨cells, tree, hsweep, -⟩ :=
      (({ v with agenda := rest } : Workspace).perform task).exists_sweep_eq
    rw [step_of_agenda hagenda, hsweep]
    exact h.nextCommand.trans hle
  · rcases List.mem_append.mp hmem with hmem | hmem
    · exact (hv.wellKept hprompt).not_write_mem hagenda hroused hnow (houtput ho) htasks u hmem
    · exact h.unwritten ho u (List.mem_cons_of_mem _ hmem)
  · rw [hv.outputValue_step hprompt hagenda hnow (houtput ho) hnext
      ((hroute'.output _).trans ho) fun u heq => h.unwritten ho u (heq ▸ List.mem_cons_self)]
    exact h.outputs ho

end Moving

/-- A cell that is moved sets out. -/
theorem Chronicle.moving (h : Chronicle backend may deeds w) (hprompt : backend.Prompt)
    (hquiet : w.agenda = []) (hcell : w.cell? c = some cell) (hw : w.Equipped cell)
    (hnew : cell.position.same p = false) (hmay : may w (.setPosition c p)) (seen : Prop) :
    w.Moving c cell p seen (w.call (.setPosition c p)).step [.cell c .synchronize] := by
  let u : Workspace := w.call (.setPosition c p)
  have hu : Chronicle backend may deeds u := h.call _ hquiet not_false hmay
  obtain ⟨hsecluded, -, -⟩ := hu.exists_run hprompt
  have hagenda : u.agenda = [.operate (.setPosition c p)] := rfl
  let now : Cell := { cell with position := p, suspended := true }
  have hheld : ({ u with agenda := [] } : Workspace).heldCell? c = some cell := by
    have hfound : u.cell? c = some cell := hcell
    have hmem : c ∈ u.heldCells := hsecluded.held (by rw [hfound]; rintro ⟨⟩)
    rw [heldCell?, if_pos (List.contains_iff_mem.mpr hmem)]
    exact hcell
  have hperform : ({ u with agenda := [] } : Workspace).perform (.operate (.setPosition c p)) =
      (({ u with agenda := [] } : Workspace).putCell c now).push
        [.cell c .synchronize, .cell c (.endBatch false false), .releaseCell c] := by
    show ({ u with agenda := [] } : Workspace).onHeldCell c _ = _
    rw [onHeldCell_eq, hheld, Option.elim_some, if_neg (by simp [hnew]), batch, hw.awake]
    rfl
  have hnow : u.step.cell? c = some now :=
    hsecluded.cell?_step hagenda (by simp) (by rw [hperform]; exact cell?_putCell ..)
  have hroute : cell.EnRoute p seen now :=
    ⟨rfl, fun _ => rfl, fun _ => rfl, fun _ _ => rfl, fun hdirty => by
      cases hw.clean.symm.trans hdirty⟩
  refine ⟨?_, ⟨now, hnow, hroute⟩, by simp [Task.works, Task.rank], by simp, ?_, by simp,
    fun ho => ?_⟩
  · rw [step_of_agenda hagenda, sweep_agenda, hperform]
    rfl
  · obtain ⟨cells, tree, hsweep, -⟩ :=
      (({ u with agenda := [] } : Workspace).perform (.operate (.setPosition c p))).exists_sweep_eq
    rw [step_of_agenda hagenda, hsweep, hperform]
    exact Nat.le_refl _
  · have hbefore : u.cell? c = some cell := hcell
    exact hu.outputValue_step hprompt hagenda hbefore ho hnow ho (by simp)

/-- The cell arrives. If it has taken note of something it is going to refresh. -/
theorem Moving.arrives {seen : Prop} (h : w.Moving c cell p seen v []) (hw : w.Equipped cell)
    (hv : Chronicle backend may deeds v) (hprompt : backend.Prompt) :
    ∃ moved, cell.Relocated p moved ∧ v.step.cell? c = some moved ∧
      (∀ {name : String} {o : CellOutput}, cell.outputs[name]? = some o →
        v.step.outputValue o = w.outputValue o) ∧
      ((∀ name : String, moved.inputs[name]? = cell.inputs[name]?) ∧
          v.step.agenda = [.releaseCell c] ∨
        seen ∧ v.step.agenda = [.cell c .refresh, .releaseCell c]) := by
  obtain ⟨hsecluded, -, -⟩ := hv.exists_run hprompt
  obtain ⟨now, hnow, hroute⟩ := h.present
  have hagenda : v.agenda = .cell c (.endBatch false false) :: [.releaseCell c] := h.agenda
  let moved : Cell := { now with suspended := false, dirty := false }
  have hperform : ({ v with agenda := [.releaseCell c] } : Workspace).perform
      (.cell c (.endBatch false false)) =
        (({ v with agenda := [.releaseCell c] } : Workspace).putCell c moved).push
          (if now.dirty then [.cell c .refresh] else []) := by
    rw [perform_cell (w := { v with agenda := [.releaseCell c] }) hnow]
    rfl
  have hmoved : v.step.cell? c = some moved :=
    hsecluded.cell?_step hagenda (by simp) (by rw [hperform]; exact cell?_putCell ..)
  refine ⟨moved, ?_, hmoved, fun {name o} ho => ?_, ?_⟩
  · refine ⟨?_, hroute.output, hroute.reader⟩
    obtain ⟨inputs, outputs, dirty, heq⟩ := hroute.exists_eq
    subst heq
    exact congrArg₂ (fun suspended dirty =>
      ({ cell with position := p, inputs, outputs, suspended, dirty } : Cell))
      hw.awake.symm hw.clean.symm
  · have hnowoutput : now.outputs[name]? = some o := (hroute.output name).trans ho
    rw [hv.outputValue_step hprompt hagenda hnow hnowoutput hmoved hnowoutput (by simp)]
    exact h.outputs ho
  · rw [step_of_agenda hagenda, sweep_agenda, hperform]
    by_cases hdirty : now.dirty = true
    · rw [if_pos hdirty]
      exact .inr ⟨hroute.dirty hdirty, rfl⟩
    · rw [if_neg hdirty]
      exact .inl ⟨hroute.clean (Bool.eq_false_iff.mpr hdirty), rfl⟩

/-! ### Cells that refresh -/

/-- The tasks that cancel the command of a cell and clear its definitions. -/
def withdrawals (cell : Cell) : List Task :=
  cancelTasks cell.active ++ cell.outputs.values.map fun o => .write o.scope o.slot .unset

/-- A cell that refreshes is invalidated, and reconsiders when what this sets off is done. -/
theorem Chronicle.refreshes (h : Chronicle backend may deeds v) (hprompt : backend.Prompt)
    (hagenda : v.agenda = .cell c .refresh :: rest) (hcell : v.cell? c = some cell) :
    v.step.step.cell? c = some cell.invalidated ∧
      v.step.step.agenda = withdrawals cell ++ .cell c .reconsider :: rest := by
  obtain ⟨hsecluded, -, -⟩ := h.exists_run hprompt
  have hperform : ({ v with agenda := rest } : Workspace).perform (.cell c .refresh) =
      ({ v with agenda := rest } : Workspace).push [.cell c .invalidate, .cell c .reconsider] :=
    perform_cell (w := { v with agenda := rest }) hcell _
  have hagenda' : v.step.agenda = .cell c .invalidate :: .cell c .reconsider :: rest := by
    rw [step_of_agenda hagenda, sweep_agenda, hperform]
    rfl
  have hcell' : v.step.cell? c = some cell :=
    hsecluded.cell?_step hagenda (by simp) (by rw [hperform]; exact hcell)
  obtain ⟨hsecluded', -, -⟩ := (h.step hagenda).exists_run hprompt
  have hperform' : ({ v.step with agenda := .cell c .reconsider :: rest } : Workspace).perform
      (.cell c .invalidate) = (({ v.step with
        agenda := .cell c .reconsider :: rest } : Workspace).putCell c cell.invalidated).push
          (withdrawals cell) :=
    perform_cell (w := { v.step with agenda := .cell c .reconsider :: rest }) hcell' _
  refine ⟨hsecluded'.cell?_step hagenda' (by simp) (by rw [hperform']; exact cell?_putCell ..), ?_⟩
  rw [step_of_agenda hagenda', sweep_agenda, hperform']
  rfl

/-- A cell goes on to evaluate by itself. -/
theorem Chronicle.automatic_step {now : Cell} (h : Chronicle backend may deeds v)
    (hprompt : backend.Prompt) (hagenda : v.agenda = task :: rest) (hrest : rest ≠ [])
    (hnow : v.cell? c = some now) (hautomatic : now.automatic = true) :
    ∃ next, v.step.cell? c = some next ∧ next.automatic = true := by
  obtain ⟨hsecluded, -, -⟩ := h.exists_run hprompt
  have hop : ∀ op, task = .operate op → ∃ id answer, op = .answer (some id) answer := by
    rintro op rfl
    rcases hsecluded.operations op (hagenda ▸ List.mem_cons_self) with
      ⟨id, answer, heq, -⟩ | ⟨-, heq⟩
    · exact ⟨id, answer, heq⟩
    · rw [hagenda] at heq
      exact absurd (List.cons.inj heq).2 hrest
  obtain ⟨next, hnext, -, halters⟩ := h.exists_alters hprompt hagenda hop hnow
  refine ⟨next, hnext, ?_⟩
  cases halters with
  | evaluate => exact (now.automatic_begin _).trans hautomatic
  | endBatch outer => cases outer <;> exact hautomatic
  | automate =>
    obtain ⟨id, answer, heq⟩ := hop _ rfl
    cases heq
  | _ => exact hautomatic

/-- A cell that evaluates by itself does so when what it has set off is done. -/
theorem Chronicle.evaluates {u : Workspace} {soon : List Task} {n k : Nat}
    (h : Chronicle backend may deeds u) (hprompt : backend.Prompt)
    (hdone : (u.settle n).agenda = [])
    (hagenda : (u.settle k).agenda = soon ++ .cell c .reconsider :: rest)
    (hcell : (u.settle k).cell? c = some cell) (hautomatic : cell.automatic = true) :
    ∃ m, k < m ∧ (u.settle m).agenda = .cell c .evaluate :: rest := by
  let base : List Task := .cell c .reconsider :: rest
  let P (k : Nat) (soon : List Task) : Prop := (u.settle k).agenda = soon ++ base ∧
    ∃ now, (u.settle k).cell? c = some now ∧ now.automatic = true
  have hstep : ∀ {k task soon}, P k (task :: soon) → ∃ tasks, P (k + 1) (tasks ++ soon) := by
    rintro k task soon ⟨hagenda, now, hnow, hautomatic⟩
    obtain ⟨hsecluded, -, -⟩ := (h.settle k).exists_run hprompt
    obtain ⟨tasks, htasks⟩ := hsecluded.exists_step_agenda hagenda
    have hnext := (h.settle k).automatic_step hprompt hagenda (by simp [base]) hnow hautomatic
    rw [← settle_succ_eq_step] at htasks hnext
    exact ⟨tasks, htasks.trans (List.append_assoc ..).symm, hnext⟩
  obtain ⟨m, hkm, hreconsider, now, hnow, hautomatic⟩ := exists_settle_of_front (w := u) (P := P)
    (by simp [base] : base ≠ []) And.left hstep hdone ⟨hagenda, cell, hcell, hautomatic⟩
  refine ⟨m + 1, Nat.lt_succ_of_le hkm, ?_⟩
  rw [settle_succ_eq_step, step_of_agenda hreconsider, sweep_agenda,
    perform_cell (w := { u.settle m with agenda := rest }) hnow, performCell, if_pos hautomatic]
  rfl

/-! ### Moves -/

/-- A cell that is moved arrives. It refreshes then only if an input of it has observed something
else on the way. -/
theorem Chronicle.exists_arrival {n : Nat} (h : Chronicle backend may deeds w)
    (hprompt : backend.Prompt) (hquiet : w.agenda = []) (hcell : w.cell? c = some cell)
    (hw : w.Equipped cell)
    (hnan : ∀ {name : String} {i : CellInput}, cell.inputs[name]? = some i →
      (w.inputValue i).hasNaN = false)
    (hnew : cell.position.same p = false) (hmay : may w (.setPosition c p))
    (hdone : ((w.call (.setPosition c p)).settle n).agenda = []) :
    ∃ k moved, cell.Relocated p moved ∧
      ((w.call (.setPosition c p)).settle k).cell? c = some moved ∧
      (∀ {name : String} {o : CellOutput}, cell.outputs[name]? = some o →
        ((w.call (.setPosition c p)).settle k).outputValue o = w.outputValue o) ∧
      ((∀ name : String, moved.inputs[name]? = cell.inputs[name]?) ∧
          ((w.call (.setPosition c p)).settle k).agenda = [.releaseCell c] ∨
        (∃ j < k, w.Differs cell ((w.call (.setPosition c p)).settle j)) ∧
          ((w.call (.setPosition c p)).settle k).agenda = [.cell c .refresh, .releaseCell c]) := by
  let u : Workspace := w.call (.setPosition c p)
  have hu : Chronicle backend may deeds u := h.call _ hquiet not_false hmay
  let P (k : Nat) (soon : List Task) : Prop :=
    w.Moving c cell p (∃ j < k, w.Differs cell (u.settle j)) (u.settle k) soon
  have hfirst : P 1 [.cell c .synchronize] := by
    have hmoving := h.moving hprompt hquiet hcell hw hnew hmay
      (∃ j < 1, w.Differs cell (u.settle j))
    show Moving _ _ _ _ _ _ _
    rwa [settle_succ_eq_step, Workspace.settle]
  have hstep : ∀ {k task soon}, P k (task :: soon) → ∃ tasks, P (k + 1) (tasks ++ soon) := by
    intro k task soon hmoving
    obtain ⟨tasks, hnext⟩ := Moving.step hmoving hw hnan (hu.settle k) hprompt
    refine ⟨tasks, ?_⟩
    rw [← settle_succ_eq_step] at hnext
    refine hnext.mono ?_
    rintro (⟨j, hj, hdiffers⟩ | hdiffers)
    · exact ⟨j, Nat.lt_succ_of_lt hj, hdiffers⟩
    · exact ⟨k, Nat.lt_succ_self k, hdiffers⟩
  obtain ⟨m, -, hend⟩ := exists_settle_of_front (w := u) (P := P) (by simp [landing])
    Moving.agenda hstep hdone hfirst
  obtain ⟨moved, hrelocated, harrived⟩ := Moving.arrives hend hw (hu.settle m) hprompt
  simp only [← settle_succ_eq_step] at harrived
  obtain ⟨hmoved, houtputs, hcases⟩ := harrived
  refine ⟨m + 1, moved, hrelocated, hmoved, houtputs, hcases.imp_right ?_⟩
  rintro ⟨⟨j, hj, hdiffers⟩, hagenda⟩
  exact ⟨⟨j, Nat.lt_succ_of_lt hj, hdiffers⟩, hagenda⟩

/-- What becomes of a cell when the client moves it and all that this sets off is done. -/
inductive Moves (w : Workspace) (c : CellId) (cell : Cell) (p : Position) (n : Nat) : Prop
  /-- It stays as it was, its definitions keep their values, and its inputs observe what they
  did. -/
  | still {moved : Cell} (relocated : cell.Relocated p moved)
      (present : ((w.call (.setPosition c p)).settle n).cell? c = some moved)
      (outputs : ∀ (name : String) (o : CellOutput), cell.outputs[name]? = some o →
        ((w.call (.setPosition c p)).settle n).outputValue o = w.outputValue o)
      (inputs : ¬w.Differs cell ((w.call (.setPosition c p)).settle n))
  /-- An input observes something else at some moment, and when the cell has arrived its command is
  cancelled, its definitions are cleared, its results are stripped, and it evaluates again. -/
  | renewed {moved : Cell} {j k m : Nat} (relocated : cell.Relocated p moved)
      (earlier : j < k) (differs : w.Differs cell ((w.call (.setPosition c p)).settle j))
      (present : ((w.call (.setPosition c p)).settle k).cell? c = some moved.invalidated)
      (withdraws : ((w.call (.setPosition c p)).settle k).agenda =
        withdrawals moved ++ [.cell c .reconsider, .releaseCell c])
      (later : k < m) (evaluates : ((w.call (.setPosition c p)).settle m).agenda =
        [.cell c .evaluate, .releaseCell c])

/-- A cell that is moved evaluates again if one of its inputs observes something else in the end,
and only if one does so at some moment; otherwise it stays as it was. -/
theorem Chronicle.moves {n : Nat} (h : Chronicle backend may deeds w) (hprompt : backend.Prompt)
    (hquiet : w.agenda = []) (hcell : w.cell? c = some cell) (hattached : cell.scope ≠ none)
    (hautomatic : cell.automatic = true)
    (hnan : ∀ (name : String) (i : CellInput), cell.inputs[name]? = some i →
      (w.inputValue i).hasNaN = false)
    (hnew : cell.position.same p = false) (hmay : may w (.setPosition c p))
    (hdone : ((w.call (.setPosition c p)).settle n).agenda = []) : w.Moves c cell p n := by
  let u : Workspace := w.call (.setPosition c p)
  have hw : w.Equipped cell := h.equipped hprompt hquiet hcell hattached
  have hu : Chronicle backend may deeds u := h.call _ hquiet not_false hmay
  obtain ⟨k, moved, hrelocated, hmoved, houtputs, hcases⟩ :=
    h.exists_arrival hprompt hquiet hcell hw (hnan _ _) hnew hmay hdone
  rcases hcases with ⟨hinputs, hagenda⟩ | ⟨⟨j, hj, hdiffers⟩, hagenda⟩
  · have hfinished : (u.settle (k + 1)).agenda = [] := by
      rw [settle_succ_eq_step, step_of_agenda hagenda, sweep_agenda]
      rfl
    have hlast : u.settle n = (u.settle k).step := by
      rw [settle_eq_of_done hdone hfinished, settle_succ_eq_step]
    have hpresent : (u.settle k).step.cell? c = some moved :=
      ((hu.settle k).exists_run hprompt).1.cell?_step hagenda (by simp) hmoved
    refine .still hrelocated (hlast ▸ hpresent) (fun name o ho => ?_) ?_
    · have hkept : moved.outputs[name]? = some o := (hrelocated.output name).trans ho
      show (u.settle n).outputValue o = w.outputValue o
      rw [hlast, (hu.settle k).outputValue_step hprompt hagenda hmoved hkept hpresent hkept
        (by simp)]
      exact houtputs ho
    · rintro ⟨name, i, hi, hother⟩
      have hremembered := ((hu.settle n).wellKept hprompt).last_same (by rw [hdone]; simp)
        (by rw [hdone]; simp) (hlast ▸ hpresent) ((hinputs name).trans hi)
      exact hother (SlotValue.same_trans (SlotValue.same_symm hremembered) (hw.last hi))
  · obtain ⟨hinvalidated, hwithdraws⟩ := (hu.settle k).refreshes hprompt hagenda hmoved
    simp only [← settle_succ_eq_step] at hinvalidated hwithdraws
    have hstays : moved.invalidated.automatic = true := by
      show moved.automatic = true
      rw [hrelocated.same]
      exact hautomatic
    obtain ⟨m, hm, hevaluates⟩ := hu.evaluates hprompt hdone hwithdraws hinvalidated hstays
    exact .renewed hrelocated (by omega) hdiffers hinvalidated hwithdraws hm hevaluates

/-- The cell `y := x + 1` waits for an answer when it is moved up by one. -/
theorem moves_up :
    let five : Expr := .number (.ofInt 5)
    let sum : Expr := .app "Assign" [.symbol "y", .app "Add" [.symbol "x", .number (.ofInt 1)]]
    let place (y : Int) : Position := ⟨.ofInt 0, .ofInt y⟩
    let defined := (((({ backend := .recording } : Workspace).call
      (.addDefinition 0 "x" .origin)).settle 4).call (.set 0 five)).settle 4
    let asking := (defined.call (.newCell (place 5) sum (some 0) true)).settle 20
    ∃ cell, asking.cell? 0 = some cell ∧ cell.status = .evaluating ∧
      asking.Moves 0 cell (place 4) 20 := by
  intro five sum place defined asking
  have hprompt : Backend.recording.Prompt := ⟨fun _ _ _ => nofun, fun _ => rfl⟩
  have hdefined : Chronicle .recording (fun _ _ => True) _ defined :=
    (((Chronicle.start.call (.addDefinition 0 "x" .origin) rfl not_false trivial).settle 4).call
      (.set 0 five) (by decide +kernel) not_false trivial).settle 4
  have hasking : Chronicle .recording (fun _ _ => True) _ asking :=
    (hdefined.call (.newCell (place 5) sum (some 0) true) (by decide +kernel) not_false
      trivial).settle 20
  have hfound : (asking.cell? 0).any (fun cell => decide (cell.status = .evaluating ∧
      cell.scope ≠ none ∧ cell.automatic = true ∧ cell.position.same (place 4) = false ∧
      ∀ entry ∈ cell.inputs.toList, (asking.inputValue entry.2).hasNaN = false)) = true := by
    decide +kernel
  obtain ⟨cell, hcell, hfound⟩ := (Option.any_eq_true _ _).mp hfound
  obtain ⟨hstatus, hattached, hautomatic, hnew, hnan⟩ := of_decide_eq_true hfound
  refine ⟨cell, hcell, hstatus, hasking.moves hprompt (by decide +kernel) hcell hattached
    hautomatic (fun name i hi => ?_) hnew trivial (by decide +kernel)⟩
  exact hnan (name, i) (Std.TreeMap.mem_toList_iff_getElem?_eq_some.mpr hi)

/-- What an input observes for a moment is enough. A cell sets `x` to 5, and another one further
down sets `x` to `x + 1`. The second one is moved up by one: `x` is 5 where it reads it, before and
after. But its definition comes to lie before its input for a moment, and so it evaluates again. -/
theorem reevaluated_in_passing :
    let five : Expr := .number (.ofInt 5)
    let six : Expr := .number (.ofInt 6)
    let place (y : Int) : Position := ⟨.ofInt 0, .ofInt y⟩
    let define (w : Workspace) (y : Int) (body result : Expr) : Workspace :=
      ((w.apply (.newCell (place y) (.app "Assign" [.symbol "x", body]) (some 0) true)).2.apply
        (.answer none (.outcome (.ok result)))).2
    let w := define { backend := .recording } 0 five five
    let w := define w 5 (.app "Add" [.symbol "x", .number (.ofInt 1)]) six
    let w' := (w.apply (.setPosition 1 (place 4))).2
    let seen (w : Workspace) : Option (List SlotValue × List SlotValue × CellStatus) :=
      (w.cell? 1).map fun cell =>
        (cell.inputs.values.map w.inputValue, cell.outputs.values.map w.outputValue, cell.status)
    w'.agenda = [] ∧ seen w = some ([.defined five], [.defined six], .done) ∧
      seen w' = some ([.defined five], [.unset], .evaluating) ∧
      w'.history =
        [.dispatched 2 ⟨1, [("x", five)], .app "Add" [.symbol "x", .number (.ofInt 1)]⟩] := by
  decide +kernel

end Workspace

end MathCanvas
