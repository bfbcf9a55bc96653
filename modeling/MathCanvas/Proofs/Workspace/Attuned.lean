import MathCanvas.Proofs.Scope.Listeners
import MathCanvas.Proofs.Workspace.Alters
import MathCanvas.Proofs.Workspace.Closed

/-!
# Inputs of cells and the readers to which they listen

An input of a cell listens to the reader that was made for it. When the cell drops the input, the
reader goes before the cell gets any other one, so that whatever tells the cell about a name is the
reader of its input of that name (`Workspace.Attuned`). This matters because a cell is told of a
value by one reader, and asks its inputs for their values when it evaluates.
-/

namespace MathCanvas

/-- Whether a task belongs to the registration of a cell in its scope, by which the cell gets other
inputs. -/
def Task.registers (c : CellId) : Task → Bool
  | .cell c' (.enter _) | .cell c' .synchronize | .cell c' (.addInput _ _ _)
  | .cell c' (.endBatch _ _) => c' == c
  | _ => false

/-- Whether an operation gives a cell other inputs, where `next` is the number of a new cell. -/
def Op.registers (next c : CellId) : Op → Bool
  | .setScope c' _ | .setExpression c' _ | .setPosition c' _ => c' == c
  | .newCell _ _ _ _ => next == c
  | _ => false

/-- Whether an operation changes who is enrolled, or where. -/
def Op.enlists : Op → Bool
  | .addDefinition .. | .addReader .. | .move .. | .remove _ | .newCell .. | .setScope ..
  | .setExpression .. | .setPosition .. => true
  | _ => false

theorem Op.Answers.enlists {op : Op} (h : op.Answers) : op.enlists = false := by
  cases op <;> first | rfl | exact absurd h id

theorem Op.registers_of_enlists {op : Op} (h : op.enlists = false) (next c : CellId) :
    op.registers next c = false := by
  cases op <;> first | rfl | cases h

/-- The reader of a cell's input. -/
def Cell.reader? (cell : Cell) (name : String) : Option (ScopeId × ReaderId) :=
  (cell.inputs[name]?).map fun i => (i.scope, i.reader)

theorem Cell.reader?_insert (cell : Cell) (name n : String) (i : CellInput) :
    ({ cell with inputs := cell.inputs.insert name i } : Cell).reader? n =
      if name = n then some (i.scope, i.reader) else cell.reader? n := by
  simp only [Cell.reader?, lookup_insert]
  split <;> rfl

namespace Workspace

variable {w w' w'' : Workspace} {may : CellId → Prop} {gives : Prop} {c : CellId} {cell cell' : Cell}
  {name : String} {p s : ScopeId} {r : ReaderId} {task : Task} {tasks earlier agenda : List Task}

/-! ### Tasks that leave the inputs of a cell alone -/

/-- Tasks that give a cell no other inputs. -/
def Steady (c : CellId) (tasks : List Task) : Prop := ∀ task ∈ tasks, task.registers c = false

@[simp] theorem steady_nil : Steady c [] := by simp [Steady]

@[simp] theorem steady_cons :
    Steady c (task :: tasks) ↔ task.registers c = false ∧ Steady c tasks :=
  List.forall_mem_cons

@[simp] theorem steady_append {more : List Task} :
    Steady c (tasks ++ more) ↔ Steady c tasks ∧ Steady c more :=
  List.forall_mem_append

@[simp] theorem steady_map {α : Type} {f : α → Task} {l : List α} :
    Steady c (l.map f) ↔ ∀ x ∈ l, (f x).registers c = false :=
  List.forall_mem_map

@[simp] theorem steady_cancelTasks (active : Option CommandId) : Steady c (cancelTasks active) := by
  simp [cancelTasks, Task.registers]

/-- Only the cells of `may` are going to get other inputs, and a command is cancelled only if one is
given up. -/
def Permitted (may : CellId → Prop) (gives : Prop) (tasks : List Task) : Prop :=
  ∀ task ∈ tasks, (∀ c, task.registers c = true → may c) ∧ ∀ id, task = .cancel id → gives

@[simp] theorem permitted_nil : Permitted may gives [] := by simp [Permitted]

@[simp] theorem permitted_cons : Permitted may gives (task :: tasks) ↔
    ((∀ c, task.registers c = true → may c) ∧ ∀ id, task = .cancel id → gives) ∧
      Permitted may gives tasks :=
  List.forall_mem_cons

@[simp] theorem permitted_append {more : List Task} : Permitted may gives (tasks ++ more) ↔
    Permitted may gives tasks ∧ Permitted may gives more :=
  List.forall_mem_append

@[simp] theorem permitted_map {α : Type} {f : α → Task} {l : List α} :
    Permitted may gives (l.map f) ↔
      ∀ x ∈ l, (∀ c, (f x).registers c = true → may c) ∧ ∀ id, f x = .cancel id → gives :=
  List.forall_mem_map

theorem permitted_cancelTasks {active : Option CommandId} (h : active = none ∨ gives) :
    Permitted may gives (cancelTasks active) := by
  rcases h with rfl | h
  · exact permitted_nil
  · simp [cancelTasks, Task.registers, h]

theorem Permitted.steady (h : Permitted may gives tasks) (hc : ¬may c) : Steady c tasks :=
  fun task htask => Bool.eq_false_iff.mpr fun hregisters => hc ((h task htask).1 c hregisters)

/-- Of the clients only a new subscription begins to listen, and nobody else to a definition, which
is one of the client's then. -/
structure Gathers (w w' : Workspace) : Prop where
  clients : ∀ {p : ScopeId} {r : ReaderId} {k : SubscriptionId}, .client k ∈ w'.tree.listeners p r →
    .client k ∈ w.tree.listeners p r ∨ k = w.subscriptions.size
  definitions : ∀ {s : ScopeId} {id : SlotId} {l : Listener}, l ∈ w'.tree.definitionListeners s id →
    l ∈ w.tree.definitionListeners s id ∨ l = .client w.subscriptions.size ∧
      ∃ handle ∈ w.definitions, handle.scope = s ∧ handle.slot = id
  subscriptions : w.subscriptions.size ≤ w'.subscriptions.size

/-- No input begins to listen, and what is put on the agenda is permitted. -/
structure Heeds (may : CellId → Prop) (gives : Prop) (w w' : Workspace) : Prop
    extends w.Gathers w' where
  inputs : ∀ (p : ScopeId) (r : ReaderId), (w'.tree.inputs p r).Sublist (w.tree.inputs p r)
  agenda : ∃ tasks, w'.agenda = tasks ++ w.agenda ∧ Permitted may gives tasks

namespace Heeds

theorem refl (w : Workspace) : w.Heeds may gives w :=
  ⟨⟨.inl, .inl, Nat.le_refl _⟩, fun _ _ => .refl _, [], rfl, permitted_nil⟩

theorem of_same (h : w.Heeds may gives w') (htree : w''.tree = w'.tree)
    (hagenda : w''.agenda = w'.agenda)
    (hsubscriptions : w'.subscriptions.size ≤ w''.subscriptions.size) : w.Heeds may gives w'' := by
  obtain ⟨⟨clients, definitions, subscriptions⟩, inputs, agenda⟩ := h
  rw [← htree] at inputs clients definitions
  exact ⟨⟨clients, definitions, subscriptions.trans hsubscriptions⟩, inputs, hagenda ▸ agenda⟩

theorem withTree (h : w.Heeds may gives w') {tree : ScopeTree} (htree : w'.tree.ListensLess tree) :
    w.Heeds may gives ({ w' with tree } : Workspace) :=
  ⟨⟨fun hk => h.clients (htree.clients hk), fun hl => h.definitions (htree.definitions hl),
    h.subscriptions⟩, fun p r => (htree.inputs p r).trans (h.inputs p r), h.agenda⟩

theorem readers (h : w.Heeds may gives w') (hl : .input c name ∈ w'.tree.listeners p r) :
    .input c name ∈ w.tree.listeners p r :=
  ScopeTree.mem_inputs_iff.mp ((h.inputs p r).subset (ScopeTree.mem_inputs_iff.mpr hl))

theorem push (h : w.Heeds may gives w') (htasks : Permitted may gives tasks) :
    w.Heeds may gives (w'.push tasks) where
  clients := h.clients
  definitions := h.definitions
  subscriptions := h.subscriptions
  inputs := h.inputs
  agenda := by
    obtain ⟨earlier, hagenda, hearlier⟩ := h.agenda
    refine ⟨tasks ++ earlier, ?_, permitted_append.mpr ⟨htasks, hearlier⟩⟩
    rw [Workspace.push, hagenda, List.append_assoc]

theorem putCell (h : w.Heeds may gives w') (c : CellId) (cell : Cell) :
    w.Heeds may gives (w'.putCell c cell) := h.of_same rfl rfl le_rfl

/-! ### The parts of a task -/

theorem spread (h : w.Heeds may gives w') (s : ScopeId) {result : List ReaderId × ScopeTree}
    (hresult : w'.tree.ListensLess result.2) : w.Heeds may gives (w'.spread s result) :=
  (h.withTree hresult).push (by simp [noticeTasks, Task.registers])

theorem write (h : w.Heeds may gives w') (s : ScopeId) (id : SlotId) (v : SlotValue) :
    w.Heeds may gives (w'.write s id v) := by
  have htree := h.withTree (w'.tree.listensLess_write s id v)
  unfold Workspace.write
  simp only
  split
  · exact htree.push (by simp [Task.registers])
  · exact htree

theorem tell (w : Workspace) (l : Listener) (v : SlotValue) : w.Heeds may gives (w.tell v l) := by
  have h : w.Heeds may gives w := refl w
  unfold Workspace.tell
  split
  · split
    · exact h.spread _ (ScopeTree.listensLess_update _ _ _)
    · exact h
  · split
    · exact h
    split
    · exact h
    split
    · exact h
    simp only
    split
    · exact h.putCell _ _
    · exact (h.putCell _ _).push (by simp [Task.registers])
  · split
    · exact h
    · refine push (h.of_same rfl rfl (by simp [record])) ?_
      simp [Task.registers]

theorem dispatch (h : w.Heeds may gives w') (c : CellId) (cell : Cell) (e : Expr) :
    w.Heeds may gives (w'.dispatch c cell e) := by
  unfold Workspace.dispatch
  refine push (h.of_same rfl rfl le_rfl) ?_
  simp [Task.registers]

theorem advance (h : w.Heeds may gives w') (c : CellId) (cell : Cell) (generation : Nat) :
    w.Heeds may gives (w'.advance c cell generation) := by
  unfold Workspace.advance
  split
  · exact h
  split
  · exact h
  split
  · exact h.putCell _ _
  · exact h.dispatch c cell _
  · exact (h.putCell _ _).push (by simp [Task.registers])

theorem receive (h : w.Heeds may gives w') (id : CommandId) (c : CellId) (outcome : Outcome) :
    w.Heeds may gives (w'.receive id c outcome) := by
  unfold Workspace.receive
  split
  · exact h
  split
  · exact h
  simp only
  split
  · exact h.putCell _ _
  split
  · exact h.putCell _ _
  · exact (h.putCell _ _).push (by simp [Task.registers])

theorem batch (h : w.Heeds may gives w') (hc : may c) (cell : Cell) (always : Bool) :
    w.Heeds may gives (w'.batch c cell always) :=
  (h.putCell _ _).push (by simp [Task.registers, hc])

theorem setScope (h : w.Heeds may gives w') (hc : may c) {cell : Cell}
    (hcell : cell.active = none ∨ gives) (scope : Option ScopeId) :
    w.Heeds may gives (w'.setScope c cell scope) := by
  unfold Workspace.setScope
  split
  · exact h
  · refine (h.putCell _ _).push ?_
    simp [permitted_cancelTasks hcell, Task.registers, hc]

theorem onHeldCell {f : Cell → Workspace} (hf : ∀ cell, w.Heeds may gives (f cell)) :
    w.Heeds may gives (w.onHeldCell c f) := by
  unfold Workspace.onHeldCell onCell
  split
  · split
    · exact hf _
    · exact refl w
  · exact refl w

theorem answerCommand (w : Workspace) (id : CommandId) (answer : Answer) :
    w.Heeds may gives (w.answerCommand id answer).2 := by
  have h : ∀ commands, w.Heeds may gives ({ w with commands } : Workspace) :=
    fun _ => (refl w).of_same rfl rfl le_rfl
  unfold Workspace.answerCommand
  split
  · exact refl w
  · rename_i command commands _
    cases answer with
    | outcome outcome => exact (h commands).receive _ _ _
    | computed => exact (h commands).receive _ _ _
    | unreadable e => exact h commands

theorem letGo (w : Workspace) (k : SubscriptionId) (ends : Bool) :
    w.Heeds may gives (w.letGo k ends) := by
  have h : w.Heeds may gives w := refl w
  unfold Workspace.letGo
  split
  · exact h
  rename_i sub _
  split
  · have hlet : w.Heeds may gives ({ w with
        subscriptions := w.subscriptions.set! k { sub with held := false } } : Workspace) :=
      h.of_same rfl rfl (by simp)
    simp only
    split
    · split
      · split
        · exact hlet.withTree (ScopeTree.listensLess_ignoreDefinition _ _ _ _)
        · exact hlet
      · split
        · exact hlet.withTree (ScopeTree.listensLess_ignoreReader _ _ _ _)
        · exact hlet
    · exact hlet
  · exact h

theorem subscribe (w : Workspace) (handle : HandleRef) (reaction : Nat → SlotValue → List Op) :
    w.Heeds may gives (w.subscribe handle reaction) := by
  have h : w.Heeds may gives w := refl w
  unfold Workspace.subscribe
  simp only
  split
  · split
    · rename_i handle hhandle
      refine ⟨⟨fun hk => ?_, fun hl => ?_, by simp⟩, fun _ _ => ?_, h.agenda⟩
      · exact .inl (ScopeTree.listeners_listenToDefinition .. ▸ hk)
      · refine (ScopeTree.mem_definitionListeners_listenToDefinition hl).symm.imp_right ?_
        rintro ⟨rfl, rfl, rfl⟩
        exact ⟨rfl, handle, Array.mem_of_getElem? hhandle, rfl, rfl⟩
      · rw [ScopeTree.inputs, ScopeTree.listeners_listenToDefinition]
        exact .refl _
    · exact h.of_same rfl rfl (by simp)
  · split
    · refine ⟨⟨fun hk => ?_, fun hl => ?_, by simp⟩, fun p r => ?_, h.agenda⟩
      · refine (ScopeTree.mem_listeners_listenToReader hk).symm.imp_right ?_
        rintro ⟨-, -, heq⟩
        exact Listener.client.inj heq
      · exact .inl (ScopeTree.definitionListeners_listenToReader .. ▸ hl)
      · simpa [Listener.input?] using w.tree.inputs_listenToReader _ _ (.client _) p r
    · exact h.of_same rfl rfl (by simp)

/-- An operation gives other inputs to the cell that it is about. -/
theorem operate (w : Workspace) {op : Op} (hmay : ∀ c, op.registers w.nextCell c = true → may c)
    (hgives : ∀ c scope, op = .setScope c scope → gives) : w.Heeds may gives (w.operate op).2 := by
  have h : w.Heeds may gives w := refl w
  cases op with
  | child parent name start closed =>
    unfold Workspace.operate
    simp only
    split
    · exact (h.withTree (ScopeTree.listensLess_child _ _ _ _ _)).of_same rfl rfl le_rfl
    · exact h
  | dropScope s | dropCell c | ask c name | unreadable e => exact h.of_same rfl rfl le_rfl
  | addDefinition s name p =>
    unfold Workspace.operate
    simp only
    split
    · split
      · rename_i hadd
        exact (h.withTree (ScopeTree.listensLess_addDefinition hadd)).push
          (by simp [Task.registers])
      · exact h
    · exact h
  | addReader s name p =>
    unfold Workspace.operate
    simp only
    split
    · split
      · rename_i hadd
        exact (h.withTree (ScopeTree.listensLess_addReader hadd)).of_same rfl rfl le_rfl
      · exact h
    · exact h
  | set n value | clear n =>
    unfold Workspace.operate
    simp only
    split
    · exact h.write _ _ _
    · exact h
  | move handle p =>
    cases handle with
    | definition n | reader n =>
      unfold Workspace.operate
      simp only
      split
      · exact h.push (by simp [Task.registers])
      · exact h
  | remove handle =>
    cases handle with
    | definition n | reader n =>
      unfold Workspace.operate
      simp only
      split
      · exact h.push (by simp [Task.registers])
      · exact h
  | subscribe handle reaction => exact subscribe w handle reaction
  | unsubscribe k | detach k => exact letGo w k _
  | newCell position expression scope automatic =>
    refine setScope (putCell ?_ _ _) (hmay _ (beq_self_eq_true _)) (.inl rfl) _
    exact h.of_same rfl rfl le_rfl
  | setScope c scope =>
    refine onHeldCell fun cell => ?_
    split
    · exact h.setScope (hmay c (beq_self_eq_true c)) (.inr (hgives c scope rfl)) _
    · exact h
  | setExpression c expression =>
    exact onHeldCell fun cell => (h.push (by simp [Task.registers])).batch (hmay c (beq_self_eq_true c)) _ _
  | setPosition c position =>
    refine onHeldCell fun cell => ?_
    split
    · exact h
    · exact (h.push (by simp [Task.registers])).batch (hmay c (beq_self_eq_true c)) _ _
  | setAutomatic c automatic =>
    refine onHeldCell fun cell => (h.putCell _ _).push ?_
    split <;> simp [Task.registers]
  | recalculate c => exact onHeldCell fun cell => h.push (by simp [Task.registers])
  | recalculateStale c =>
    refine onHeldCell fun cell => ?_
    split
    · exact h.push (by simp [Task.registers])
    · exact h
  | answer command answer =>
    unfold Workspace.operate
    simp only
    split
    · exact answerCommand w _ _
    · exact h
  | next =>
    unfold Workspace.operate
    simp only
    split
    · exact h
    · exact h.of_same rfl rfl le_rfl
  | reply text =>
    unfold Workspace.operate
    simp only
    split
    · exact h
    split
    · exact answerCommand w _ _
    · exact h

theorem performCell (w : Workspace) (c : CellId) (cell : Cell) {driven : CellTask}
    (hmay : (Task.cell c driven).registers c = true → may c) (hgives : driven = .invalidate → gives)
    (hadd : ∀ s name p, driven ≠ .addInput s name p) :
    w.Heeds may gives (w.performCell c cell driven) := by
  have h : w.Heeds may gives w := refl w
  cases driven with
  | refresh => exact h.push (by simp [Task.registers])
  | invalidate =>
    refine (h.putCell _ _).push ?_
    simp [permitted_cancelTasks (.inr (hgives rfl)), Task.registers]
  | reconsider =>
    unfold Workspace.performCell
    simp only
    split
    · exact h.push (by simp [Task.registers])
    · exact h.putCell _ _
  | evaluate => exact (h.putCell _ _).push (by simp [Task.registers])
  | advance generation => exact h.advance c cell generation
  | enter scope => exact h.batch (hmay (by simp [Task.registers])) _ _
  | synchronize =>
    have hc : may c := hmay (by simp [Task.registers])
    unfold Workspace.performCell
    simp only
    split
    · exact h
    · exact (h.putCell _ _).push (by simp [Task.registers, hc])
  | addOutput s name position =>
    unfold Workspace.performCell
    simp only
    split
    · exact h
    split
    · exact h
    · rename_i hadded
      exact (h.withTree (ScopeTree.listensLess_addDefinition hadded)).push
        (by simp [Task.registers])
  | keepOutput s name slot => exact h.putCell _ _
  | addInput s name p => exact absurd rfl (hadd s name p)
  | endBatch outer always =>
    refine (h.putCell _ _).push ?_
    split <;> simp [Task.registers]

end Heeds

/-- What a task may do to the inputs of cells: only `addInput` makes one listen, and others are to
come only for a cell that is being registered, or for the cell that an operation is about. Only a cell
that is invalidated or leaves its scope gives a command up. -/
theorem perform_heeds (w : Workspace) {task : Task}
    (hmay : ∀ c, task.registers c = true ∨
      (∃ op, task = .operate op ∧ op.registers w.nextCell c = true) → may c)
    (hgives : (∃ c, task = .cell c .invalidate) ∨
      (∃ c scope, task = .operate (.setScope c scope)) → gives)
    (hadd : ∀ c s name p, task ≠ .cell c (.addInput s name p)) :
    w.Heeds may gives (w.perform task) := by
  have h : w.Heeds may gives w := .refl w
  cases task with
  | operate op =>
    refine .operate w (fun c hop => hmay c (.inr ⟨op, rfl, hop⟩)) fun c scope heq => hgives ?_
    exact .inr ⟨c, scope, congrArg _ heq⟩
  | notifyReaders s readers =>
    unfold perform
    cases readers with
    | nil => exact h
    | cons reader rest =>
      simp only
      split <;> exact h.push (by simp [Task.registers])
  | notifyDefinition s slot =>
    unfold perform
    simp only
    split
    · exact h.push (by simp [Task.registers])
    · exact h
  | tell listener value => exact .tell w listener value
  | write s slot value => exact h.write s slot value
  | moveDefinition s slot p => exact h.spread s (ScopeTree.listensLess_update _ _ _)
  | moveReader s reader p => exact h.spread s (ScopeTree.listensLess_update _ _ _)
  | removeDefinition s slot => exact h.spread s (ScopeTree.listensLess_removeDefinition _ _ _)
  | removeReader s reader => exact h.spread s (ScopeTree.listensLess_removeReader _ _ _)
  | keepDefinition s slot name => exact h.of_same rfl rfl le_rfl
  | cancel id =>
    unfold perform
    simp only
    split
    · refine Heeds.push (h.of_same rfl rfl le_rfl) ?_
      simp [Task.registers]
    · refine Heeds.push (h.of_same rfl rfl le_rfl) ?_
      simp [Task.registers]
  | cell c driven =>
    cases hcell : w.cell? c with
    | none =>
      rw [perform_cell_of_none hcell]
      exact h
    | some cell =>
      rw [perform_cell hcell]
      refine .performCell w c cell (fun hregisters => hmay c (.inl hregisters))
        (fun heq => hgives (.inl ⟨c, congrArg _ heq⟩)) ?_
      rintro s name p rfl
      exact hadd c s name p rfl
  | releaseScope s | releaseCell c => exact h

/-- No task makes other clients listen than a new subscription. -/
theorem perform_gathers (w : Workspace) (task : Task) : w.Gathers (w.perform task) := by
  have hrefl : w.Gathers w := ⟨.inl, .inl, Nat.le_refl _⟩
  by_cases hadd : ∃ c s name y, task = .cell c (.addInput s name y)
  swap
  · have hheeds : w.Heeds (fun _ => True) True (w.perform task) :=
      w.perform_heeds (fun _ _ => trivial) (fun _ => trivial) fun c s name y heq =>
        hadd ⟨c, s, name, y, heq⟩
    exact hheeds.toGathers
  obtain ⟨c, s, name, y, rfl⟩ := hadd
  cases hcell : w.cell? c with
  | none =>
    rw [perform_cell_of_none hcell]
    exact hrefl
  | some cell =>
    rw [perform_cell hcell]
    unfold performCell
    simp only
    split
    · exact hrefl
    split
    · exact hrefl
    rename_i hadded
    have hless := ScopeTree.listensLess_addReader hadded
    refine ⟨fun hk => .inl (hless.clients ?_), fun hl => .inl (hless.definitions ?_), Nat.le_refl _⟩
    · exact (ScopeTree.mem_listeners_listenToReader hk).resolve_left fun hnew => nomatch hnew.2.2
    · exact ScopeTree.definitionListeners_listenToReader .. ▸ hl

theorem nextCell_le_perform (w : Workspace) (task : Task) :
    w.nextCell ≤ (w.perform task).nextCell := by
  by_cases hmakes : w.Makes w.nextCell task
  · obtain ⟨-, position, expression, scope, automatic, rfl⟩ := hmakes
    obtain ⟨hnext, -⟩ := w.operate_newCell position expression scope automatic
    exact hnext ▸ Nat.le_succ _
  · exact (perform_turn hmakes).numbered.1

/-! ### Readers that are going to be removed -/

/-- A reader is going to be removed before the cell gets other inputs. -/
def Removing (c : CellId) (p : ScopeId) (r : ReaderId) (agenda : List Task) : Prop :=
  ∃ soon later, agenda = soon ++ .removeReader p r :: later ∧ Steady c soon

namespace Removing

theorem of_mem (hmem : .removeReader p r ∈ tasks) (htasks : Steady c tasks) :
    Removing c p r tasks := by
  obtain ⟨soon, later, rfl⟩ := List.append_of_mem hmem
  exact ⟨soon, later, rfl, (steady_append.mp htasks).1⟩

theorem append (h : Removing c p r agenda) (htasks : Steady c tasks) :
    Removing c p r (tasks ++ agenda) := by
  obtain ⟨soon, later, rfl, hsoon⟩ := h
  exact ⟨tasks ++ soon, later, (List.append_assoc _ _ _).symm, steady_append.mpr ⟨htasks, hsoon⟩⟩

theorem append_right (h : Removing c p r tasks) (agenda : List Task) :
    Removing c p r (tasks ++ agenda) := by
  obtain ⟨soon, later, rfl, hsoon⟩ := h
  exact ⟨soon, later ++ agenda, by rw [List.append_assoc, List.cons_append], hsoon⟩

/-- The first task is the removal, or gives the cell no other inputs. -/
theorem pop (h : Removing c p r (task :: agenda)) :
    task = .removeReader p r ∨ task.registers c = false ∧ Removing c p r agenda := by
  obtain ⟨soon, later, heq, hsoon⟩ := h
  cases soon with
  | nil => exact .inl (List.cons.inj heq).1
  | cons first soon =>
    obtain ⟨rfl, rfl⟩ := List.cons.inj heq
    obtain ⟨hfirst, hsoon⟩ := steady_cons.mp hsoon
    exact .inr ⟨hfirst, soon, later, rfl, hsoon⟩

end Removing

/-! ### Inputs and readers -/

/-- Whoever tells a cell about a name is the reader of its input of that name, or is going to be
removed. -/
structure Attuned (w : Workspace) (agenda : List Task) : Prop where
  silent : ∀ {s : ScopeId} {id : SlotId} {l : Listener}, l ∈ w.tree.definitionListeners s id →
    ∃ k, l = .client k
  numbered : ∀ {p : ScopeId} {r : ReaderId} {c : CellId} {name : String},
    .input c name ∈ w.tree.listeners p r → c < w.nextCell
  current : ∀ {p : ScopeId} {r : ReaderId} {c : CellId} {name : String} {cell : Cell},
    .input c name ∈ w.tree.listeners p r → w.cell? c = some cell →
      cell.reader? name = some (p, r) ∨ cell.reader? name = none ∧ Removing c p r agenda

namespace Attuned

/-- The first task is done, and the cells keep their inputs. -/
theorem heed (h : w.Attuned (task :: w.agenda)) (hheeds : w.Heeds may gives w')
    (hnext : w.nextCell ≤ w'.nextCell)
    (hmay : ∀ c, may c → task.registers c = true ∨ w.agenda = [])
    (hremoved : ∀ p r, task = .removeReader p r → ∀ c name, .input c name ∉ w'.tree.listeners p r)
    (hcell : ∀ {c : CellId} {cell' : Cell}, c < w.nextCell → w'.cell? c = some cell' →
      ∃ cell, w.cell? c = some cell ∧ ∀ name, cell'.reader? name = cell.reader? name) :
    w'.Attuned w'.agenda where
  silent hl := (hheeds.definitions hl).elim h.silent fun hnew => ⟨_, hnew.1⟩
  numbered hl := (h.numbered (hheeds.readers hl)).trans_le hnext
  current {p r c name cell'} hl hcell' := by
    have hbefore := hheeds.readers hl
    obtain ⟨cell, hfound, hsame⟩ := hcell (h.numbered hbefore) hcell'
    rw [hsame]
    refine (h.current hbefore hfound).imp_right ?_
    rintro ⟨hnone, hremoving⟩
    obtain ⟨tasks, hagenda, htasks⟩ := hheeds.agenda
    rcases hremoving.pop with heq | ⟨hregisters, hremoving⟩
    · exact absurd hl (hremoved p r heq c name)
    · refine ⟨hnone, hagenda ▸ hremoving.append (htasks.steady fun hc => ?_)⟩
      rcases hmay c hc with htrue | hquiet
      · rw [hregisters] at htrue
        cases htrue
      · obtain ⟨soon, later, heq, -⟩ := hquiet ▸ hremoving
        simp at heq

/-- The first task changes nothing. -/
theorem keep (h : w.Attuned (task :: w.agenda)) (htask : ∀ p r, task ≠ .removeReader p r) :
    w.Attuned w.agenda :=
  h.heed (.refl w : w.Heeds (fun _ => False) False w) (Nat.le_refl _) (fun _ hc => hc.elim)
    (fun p r heq => absurd heq (htask p r)) fun _ hfound => ⟨_, hfound, fun _ => rfl⟩

/-- A cell lets go of some inputs, and their readers are to be removed first of all. -/
theorem release {new : Cell} (h : w.Attuned (task :: w.agenda)) (hcell : w.cell? c = some cell)
    (htask : ∀ p r, task ≠ .removeReader p r)
    (hhead : task.registers c = true ∨ w.agenda = [])
    (hreader : ∀ name : String, new.reader? name = cell.reader? name ∨ new.reader? name = none ∧
      ∀ p r, cell.reader? name = some (p, r) → Removing c p r tasks)
    (hothers : ∀ c', c ≠ c' → Steady c' tasks) :
    ((w.putCell c new).push tasks).Attuned (tasks ++ w.agenda) where
  silent := h.silent
  numbered := h.numbered
  current {p r c' name found} hl hfound := by
    have hlookup : (w.putCell c new).cell? c' = some found := hfound
    rw [cell?, Workspace.putCell, lookup_insert] at hlookup
    have hpop : ∀ {c'}, Removing c' p r (task :: w.agenda) →
        task.registers c' = false ∧ Removing c' p r w.agenda :=
      fun hremoving => hremoving.pop.resolve_left (htask p r)
    split at hlookup
    · rename_i hc
      cases hlookup
      subst hc
      rcases h.current hl hcell with hsome | ⟨-, hremoving⟩
      · rcases hreader name with hsame | ⟨hnone, hgone⟩
        · exact .inl (hsame.trans hsome)
        · exact .inr ⟨hnone, (hgone p r hsome).append_right _⟩
      · obtain ⟨hregisters, hremoving⟩ := hpop hremoving
        rcases hhead with htrue | hquiet
        · rw [hregisters] at htrue
          cases htrue
        · obtain ⟨soon, later, heq, -⟩ := hquiet ▸ hremoving
          simp at heq
    · rename_i hc
      refine (h.current hl hlookup).imp_right ?_
      rintro ⟨hnone, hremoving⟩
      exact ⟨hnone, (hpop hremoving).2.append (hothers c' hc)⟩

theorem setScope (h : w.Attuned (task :: w.agenda)) (hcell : w.cell? c = some cell)
    (htask : ∀ p r, task ≠ .removeReader p r) (hquiet : w.agenda = []) (scope : Option ScopeId) :
    (w.setScope c cell scope).Attuned (w.setScope c cell scope).agenda := by
  unfold Workspace.setScope
  split
  · exact h.keep htask
  refine h.release hcell htask (.inr hquiet) (fun name => .inr ⟨?_, fun p r hreader => ?_⟩)
    fun c' hc => ?_
  · simp [Cell.reader?, Cell.unregistered]
  · obtain ⟨i, hi, heq⟩ := Option.map_eq_some_iff.mp hreader
    obtain ⟨rfl, rfl⟩ := Prod.mk.inj heq
    rw [List.append_assoc _ (cell.outputs.values.map _)]
    refine (Removing.of_mem (List.mem_append_right _ (List.mem_map.mpr ⟨i, ?_, rfl⟩)) ?_).append_right
      _
    · exact (mem_values_iff_lookup _ _).mpr ⟨name, hi⟩
    · simp [Task.registers]
  · simp [Task.registers, hc]

theorem synchronize (h : w.Attuned (task :: w.agenda)) (hcell : w.cell? c = some cell)
    (htask : ∀ p r, task ≠ .removeReader p r) (hregisters : task.registers c = true) (s : ScopeId) :
    (w.synchronize c cell s).Attuned (w.synchronize c cell s).agenda := by
  let reads (entry : String × CellInput) : Bool := cell.expression.readNames.contains entry.1
  unfold Workspace.synchronize
  simp only [List.partition_eq_filter_filter]
  refine h.release hcell htask (.inl hregisters) (fun name => ?_) fun c' hc => ?_
  · have hlookup : ∀ i, (Std.TreeMap.ofList (cell.inputs.toList.filter reads) compare)[name]? =
        some i ↔ cell.inputs[name]? = some i ∧ reads (name, i) = true :=
      fun i => lookup_ofList_filter_eq_some_iff
    cases hi : cell.inputs[name]? with
    | none =>
      refine .inl (congrArg _ ((Option.eq_none_iff_forall_not_mem.mpr fun i hmem => ?_).trans hi.symm))
      have hfound := ((hlookup i).mp hmem).1
      rw [hi] at hfound
      cases hfound
    | some i =>
      cases hread : reads (name, i) with
      | true => exact .inl (congrArg _ (((hlookup i).mpr ⟨hi, hread⟩).trans hi.symm))
      | false =>
        refine .inr ⟨Option.map_eq_none_iff.mpr ?_, fun p r hreader => ?_⟩
        · refine Option.eq_none_iff_forall_not_mem.mpr fun i' hmem => ?_
          obtain ⟨hi', hread'⟩ := (hlookup i').mp hmem
          cases Option.some.inj (hi.symm.trans hi')
          exact Bool.eq_false_iff.mp hread hread'
        · rw [Cell.reader?, hi] at hreader
          obtain ⟨rfl, rfl⟩ := Prod.mk.inj (Option.some.inj hreader)
          simp only [List.append_assoc]
          refine (Removing.of_mem (List.mem_map.mpr ⟨(name, i),
            List.mem_filter.mpr ⟨?_, ?_⟩, rfl⟩) ?_).append_right _
          · exact Std.TreeMap.mem_toList_iff_getElem?_eq_some.mpr hi
          · exact congrArg not hread
          · simp [Task.registers]
  · simp [Task.registers, hc]

/-- A cell gets an input with a reader of its own. -/
theorem addInput (h : w.Attuned (task :: w.agenda)) (hcell : w.cell? c = some cell)
    (hnumber : c < w.nextCell) (htask : ∀ p r, task ≠ .removeReader p r)
    (hregisters : task.registers c = true) (s : ScopeId) (name : String) (position : Position) :
    (w.performCell c cell (.addInput s name position)).Attuned
      (w.performCell c cell (.addInput s name position)).agenda := by
  have hsame : w.Attuned w.agenda := h.keep htask
  unfold Workspace.performCell
  simp only
  split
  · exact hsame
  rename_i hmissing
  split
  · exact hsame
  rename_i reader readers tree hadd
  have hnone : cell.reader? name = none := by
    rw [Std.TreeMap.contains_eq_isSome_getElem?, Bool.not_eq_true, Option.isSome_eq_false_iff,
      Option.isNone_iff_eq_none] at hmissing
    rw [Cell.reader?, hmissing, Option.map_none]
  have hadded := ScopeTree.listensLess_addReader hadd
  have hbefore : ∀ {p r c' n}, .input c' n ∈ (tree.listenToReader s reader (.input c name)).listeners
      p r → p = s ∧ r = reader ∧ c' = c ∧ n = name ∨ .input c' n ∈ w.tree.listeners p r := by
    intro p r c' n hl
    rcases ScopeTree.mem_listeners_listenToReader hl with ⟨hp, hr, heq⟩ | hl
    · rw [Listener.input.injEq] at heq
      exact .inl ⟨hp, hr, heq⟩
    · exact .inr (hadded.readers hl)
  refine ⟨fun {s' id l} hl => ?_, fun {p r c' n} hl => ?_, fun {p r c' n found} hl hfound => ?_⟩
  · have hl' : l ∈ tree.definitionListeners s' id :=
      ScopeTree.definitionListeners_listenToReader tree s reader _ s' id ▸ hl
    exact h.silent (hadded.definitions hl')
  · rcases hbefore hl with ⟨-, -, rfl, -⟩ | hl
    · exact hnumber
    · exact h.numbered hl
  · rw [cell?, Workspace.putCell, lookup_insert] at hfound
    split at hfound
    · rename_i hc
      cases hfound
      subst hc
      by_cases hn : name = n
      · subst hn
        -- no other reader tells the cell about this name
        rcases hbefore hl with ⟨rfl, rfl, -⟩ | hl
        · exact .inl ((cell.reader?_insert _ _ _).trans (if_pos rfl))
        · refine absurd (h.current hl hcell) ?_
          rw [hnone]
          rintro (hsome | ⟨-, hremoving⟩)
          · cases hsome
          · have hnot := (hremoving.pop.resolve_left (htask p r)).1
            rw [hregisters] at hnot
            cases hnot
      · rw [cell.reader?_insert, if_neg hn]
        exact hsame.current ((hbefore hl).resolve_left fun heq => hn heq.2.2.2.symm) hcell
    · rename_i hc
      exact hsame.current ((hbefore hl).resolve_left fun heq => hc heq.2.2.1.symm) hfound

theorem onHeldCell {f : Cell → Workspace} (h : w.Attuned w.agenda)
    (hf : ∀ cell, w.cell? c = some cell → (f cell).Attuned (f cell).agenda) :
    (w.onHeldCell c f).Attuned (w.onHeldCell c f).agenda := by
  unfold Workspace.onHeldCell onCell
  split
  · split
    · rename_i cell hcell
      exact hf cell hcell
    · exact h
  · exact h

/-- One task keeps the inputs of the cells and the readers in step. -/
theorem perform (h : w.Attuned (task :: w.agenda))
    (hnumbered : ∀ {c cell}, w.cell? c = some cell → c < w.nextCell)
    (hop : ∀ op, task = .operate op → op.enlists = false ∨ w.agenda = []) :
    (w.perform task).Attuned (w.perform task).agenda := by
  by_cases hscope : ∃ c scope, task = .operate (.setScope c scope)
  · obtain ⟨c, scope, rfl⟩ := hscope
    have hquiet : w.agenda = [] := (hop _ rfl).resolve_left (by rintro ⟨⟩)
    have hsame : w.Attuned w.agenda := h.keep nofun
    refine onHeldCell hsame fun cell hcell => ?_
    split
    · exact h.setScope hcell nofun hquiet scope
    · exact hsame
  by_cases hregisters : ∃ c driven, task = .cell c driven ∧
      (driven = .synchronize ∨ ∃ s name p, driven = .addInput s name p)
  · obtain ⟨c, driven, rfl, hdriven⟩ := hregisters
    have hsame : w.Attuned w.agenda := h.keep nofun
    cases hcell : w.cell? c with
    | none =>
      rw [perform_cell_of_none hcell]
      exact hsame
    | some cell =>
      rw [perform_cell hcell]
      rcases hdriven with rfl | ⟨s, name, p, rfl⟩
      · unfold performCell
        simp only
        split
        · exact hsame
        · exact h.synchronize hcell nofun (by simp [Task.registers]) _
      · exact h.addInput hcell (hnumbered hcell) nofun (by simp [Task.registers]) s name p
  refine h.heed (w.perform_heeds (fun _ hmay => hmay) (fun hgives => hgives) ?_)
    (w.nextCell_le_perform task) (fun c hc => hc.imp_right ?_) (fun p r heq c name => ?_)
    fun {c cell'} hc hcell' => ?_
  · rintro c s name p rfl
    exact hregisters ⟨c, _, rfl, .inr ⟨s, name, p, rfl⟩⟩
  · rintro ⟨op, rfl, hchosen⟩
    refine (hop op rfl).resolve_left fun hcalm => ?_
    rw [Op.registers_of_enlists hcalm] at hchosen
    cases hchosen
  · subst heq
    exact ScopeTree.not_input_removeReader w.tree p r
  · have hmakes := not_makes hc task
    obtain ⟨cell, hcell⟩ := Option.ne_none_iff_exists'.mp
      ((perform_turn hmakes).numbered.2 (by rw [hcell']; exact Option.some_ne_none _))
    refine ⟨cell, hcell, fun name => ?_⟩
    have hsame : cell'.inputs = cell.inputs → cell'.reader? name = cell.reader? name := by
      intro heq
      rw [Cell.reader?, heq, Cell.reader?]
    cases perform_alters hcell hmakes hcell' with
    | @told n i v hi =>
      refine (cell.reader?_insert n name _).trans ?_
      split
      · rename_i hn
        rw [← hn, Cell.reader?, hi, Option.map_some]
      · rfl
    | evaluate => exact hsame (cell.begin_same _).1
    | endBatch outer => exact hsame (cell.resumed_same outer).1
    | synchronize => exact absurd ⟨c, _, rfl, .inl rfl⟩ hregisters
    | addInput => exact absurd ⟨c, _, rfl, .inr ⟨_, _, _, rfl⟩⟩ hregisters
    | unregister scope => exact absurd ⟨c, scope, rfl⟩ hscope
    | _ => exact hsame rfl

end Attuned

theorem Attuned.call (h : w.Attuned w.agenda) (hquiet : w.agenda = []) (op : Op) :
    (w.call op).Attuned (w.call op).agenda := by
  refine ⟨h.silent, h.numbered, fun hl hcell => (h.current hl hcell).imp_right ?_⟩
  rintro ⟨-, soon, later, heq, -⟩
  simp [hquiet] at heq

/-! ### Sweeping -/

/-- What ignoring a reader and removing a scope keep, sweeping keeps. -/
theorem tree_sweep {R : ScopeTree → ScopeTree → Prop} (hrefl : ∀ t, R t t)
    (htrans : ∀ {t u t'}, R t u → R u t' → R t t')
    (hignore : ∀ t s r l, R t (ScopeTree.ignoreReader t s r l))
    (hremove : ∀ t s, R t (ScopeTree.remove t s)) (w : Workspace) : R w.tree w.sweep.tree := by
  have hfoldl : ∀ {α : Type} {f : ScopeTree → α → ScopeTree} (l : List α) (t : ScopeTree),
      (∀ t x, R t (f t x)) → R t (l.foldl f t) := by
    intro α f l
    induction l with
    | nil => exact fun t _ => hrefl t
    | cons x rest ih => exact fun t hf => htrans (hf t x) (ih (f t x) hf)
  have hforget : ∀ (entries : List (CellId × Cell)) (v : Workspace),
      R v.tree (entries.foldl (fun v entry =>
        if v.refersToCell entry.1 then v else v.forgetCell entry.1 entry.2) v).tree := by
    intro entries
    induction entries with
    | nil => exact fun v => hrefl v.tree
    | cons entry rest ih =>
      intro v
      rw [List.foldl_cons]
      split
      · exact ih v
      · exact htrans (hfoldl _ _ fun _ _ => hignore _ _ _ _) (ih (v.forgetCell entry.1 entry.2))
  refine htrans (hforget w.cells.toList w) (hfoldl _ _ fun t s => ?_)
  split
  · exact hrefl t
  · exact hremove t s

theorem listensLess_sweep (w : Workspace) : w.tree.ListensLess w.sweep.tree :=
  w.tree_sweep .refl .trans ScopeTree.listensLess_ignoreReader ScopeTree.listensLess_remove

/-- Sweeping takes away cells and listeners. -/
theorem Attuned.sweep (h : w.Attuned w.agenda) : w.sweep.Attuned w.sweep.agenda := by
  have htree := w.listensLess_sweep
  obtain ⟨cells, tree, heq, hcells⟩ := w.exists_sweep_eq
  rw [heq] at htree ⊢
  exact ⟨fun hl => h.silent (htree.definitions hl), fun hl => h.numbered (htree.readers hl),
    fun hl hcell => h.current (htree.readers hl) (hcells hcell)⟩

end Workspace

end MathCanvas
