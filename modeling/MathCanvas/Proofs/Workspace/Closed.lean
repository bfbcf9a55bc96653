import MathCanvas.Proofs.Workspace.Runs

/-!
# Workspaces that are closed

In a closed workspace the client subscribes to nothing, and the backend does nothing but answer.
Operations that a task sets off are then answers to commands (`Workspace.perform_responds`), so that
everything else that happens was called from outside.
-/

namespace MathCanvas

/-- Whether an operation only answers commands or passes them on. -/
def Op.Answers : Op → Prop
  | .answer _ _ | .next | .reply _ | .unreadable _ => True
  | _ => False

/-- Whether an operation begins a subscription. -/
def Op.Subscribes : Op → Prop
  | .subscribe _ _ => True
  | _ => False

theorem Op.Answers.not_subscribes {op : Op} (h : op.Answers) : ¬op.Subscribes := by
  cases op <;> simp_all [Op.Answers, Op.Subscribes]

/-- A backend that does nothing but answer. -/
structure Backend.Answering (backend : Backend) : Prop where
  onDispatch : ∀ id command, ∀ op ∈ backend.onDispatch id command, op.Answers
  onCancel : ∀ id, ∀ op ∈ backend.onCancel id, op.Answers

/-- The operations among some tasks are answers. -/
def Responses (tasks : List Task) : Prop := ∀ op, .operate op ∈ tasks → op.Answers

section Responses

variable {tasks more : List Task}

@[simp] theorem responses_nil : Responses [] := by simp [Responses]

@[simp] theorem responses_cons {task : Task} : Responses (task :: tasks) ↔
    (∀ op, task = .operate op → op.Answers) ∧ Responses tasks := by
  unfold Responses
  simp only [List.mem_cons]
  constructor
  · exact fun h => ⟨fun op heq => h op (.inl heq.symm), fun op hmem => h op (.inr hmem)⟩
  · rintro ⟨hhead, htail⟩ op (heq | hmem)
    · exact hhead op heq.symm
    · exact htail op hmem

@[simp] theorem responses_append :
    Responses (tasks ++ more) ↔ Responses tasks ∧ Responses more := by
  unfold Responses
  simp only [List.mem_append]
  constructor
  · exact fun h => ⟨fun op hmem => h op (.inl hmem), fun op hmem => h op (.inr hmem)⟩
  · rintro ⟨hfirst, hsecond⟩ op (hmem | hmem)
    · exact hfirst op hmem
    · exact hsecond op hmem

@[simp] theorem responses_map {α : Type} {f : α → Task} {l : List α} :
    Responses (l.map f) ↔ ∀ x ∈ l, ∀ op, f x = .operate op → op.Answers := by
  unfold Responses
  simp only [List.mem_map]
  constructor
  · exact fun h x hx op heq => h op ⟨x, hx, heq⟩
  · rintro h op ⟨x, hx, heq⟩
    exact h x hx op heq

@[simp] theorem responses_cancelTasks (active : Option CommandId) :
    Responses (Workspace.cancelTasks active) := by
  simp [Workspace.cancelTasks]

end Responses

namespace Workspace

variable {w w' w'' : Workspace} {tasks : List Task}

/-- The client subscribes to nothing, and the backend only answers. -/
structure Closed (w : Workspace) : Prop where
  subscriptions : w.subscriptions = #[]
  answering : w.backend.Answering

/-- The backend and the subscriptions stay, and the operations that are set off are answers. -/
structure Responds (w w' : Workspace) : Prop where
  backend : w'.backend = w.backend
  subscriptions : w'.subscriptions = w.subscriptions
  agenda : ∃ tasks, w'.agenda = tasks ++ w.agenda ∧ Responses tasks

theorem Closed.responds (h : w.Closed) (hresponds : w.Responds w') : w'.Closed :=
  ⟨hresponds.subscriptions.trans h.subscriptions, hresponds.backend ▸ h.answering⟩

namespace Responds

theorem refl (w : Workspace) : w.Responds w := ⟨rfl, rfl, [], rfl, responses_nil⟩

theorem of_same (h : w.Responds w') (hbackend : w''.backend = w'.backend)
    (hsubscriptions : w''.subscriptions = w'.subscriptions) (hagenda : w''.agenda = w'.agenda) :
    w.Responds w'' :=
  ⟨hbackend.trans h.backend, hsubscriptions.trans h.subscriptions, hagenda ▸ h.agenda⟩

theorem push (h : w.Responds w') (htasks : Responses tasks) : w.Responds (w'.push tasks) :=
  { h with
    agenda := by
      obtain ⟨earlier, hagenda, hearlier⟩ := h.agenda
      refine ⟨tasks ++ earlier, ?_, responses_append.mpr ⟨htasks, hearlier⟩⟩
      rw [Workspace.push, hagenda, List.append_assoc] }

theorem sweep (h : w.Responds w') : w.Responds w'.sweep := by
  obtain ⟨cells, tree, heq, -⟩ := w'.exists_sweep_eq
  rw [heq]
  exact h.of_same rfl rfl rfl

theorem putCell (h : w.Responds w') (c : CellId) (cell : Cell) : w.Responds (w'.putCell c cell) :=
  h.of_same rfl rfl rfl

theorem withTree (h : w.Responds w') (tree : ScopeTree) :
    w.Responds ({ w' with tree } : Workspace) := h.of_same rfl rfl rfl

/-! ### The parts of a task -/

theorem spread (h : w.Responds w') (s : ScopeId) (result : List ReaderId × ScopeTree) :
    w.Responds (w'.spread s result) :=
  (h.withTree _).push (by simp [noticeTasks])

theorem write (h : w.Responds w') (s : ScopeId) (id : SlotId) (v : SlotValue) :
    w.Responds (w'.write s id v) := by
  unfold Workspace.write
  simp only
  split
  · exact (h.withTree _).push (by simp)
  · exact h.withTree _

/-- There are no subscriptions to be called. -/
theorem tell (hclosed : w.Closed) (l : Listener) (v : SlotValue) : w.Responds (w.tell v l) := by
  have h := Responds.refl w
  unfold Workspace.tell
  split
  · split
    · exact h.spread _ _
    · exact h
  · split
    · exact h
    split
    · exact h
    split
    · exact h
    simp only
    split
    · exact h.putCell _ _
    · exact (h.putCell _ _).push (by simp)
  · rename_i k
    rw [hclosed.subscriptions]
    exact h

theorem dispatch (hclosed : w.Closed) (c : CellId) (cell : Cell) (e : Expr) :
    w.Responds (w.dispatch c cell e) := by
  have hanswers : Responses ((w.backend.onDispatch w.nextCommand
      ⟨c, w.definedInputs cell, e⟩).map .operate) := by
    rw [responses_map]
    rintro op hop op' ⟨⟩
    exact hclosed.answering.onDispatch _ _ op hop
  unfold Workspace.dispatch
  refine Responds.push ?_ hanswers
  exact (Responds.refl w).of_same rfl rfl rfl

theorem advance (hclosed : w.Closed) (c : CellId) (cell : Cell) (generation : Nat) :
    w.Responds (w.advance c cell generation) := by
  have h := Responds.refl w
  unfold Workspace.advance
  split
  · exact h
  split
  · exact h
  split
  · exact h.putCell _ _
  · exact dispatch hclosed c cell _
  · exact (h.putCell _ _).push (by simp)

theorem receive (h : w.Responds w') (id : CommandId) (c : CellId) (outcome : Outcome) :
    w.Responds (w'.receive id c outcome) := by
  unfold Workspace.receive
  split
  · exact h
  split
  · exact h
  simp only
  split
  · exact h.putCell _ _
  split
  · exact h.putCell _ _
  · exact (h.putCell _ _).push (by simp)

theorem batch (h : w.Responds w') (c : CellId) (cell : Cell) (always : Bool) :
    w.Responds (w'.batch c cell always) := by
  unfold Workspace.batch
  exact (h.putCell _ _).push (by simp)

theorem setScope (h : w.Responds w') (c : CellId) (cell : Cell) (scope : Option ScopeId) :
    w.Responds (w'.setScope c cell scope) := by
  unfold Workspace.setScope
  split
  · exact h
  · exact (h.putCell _ _).push (by simp)

theorem performCell (hclosed : w.Closed) (c : CellId) (cell : Cell) (task : CellTask) :
    w.Responds (w.performCell c cell task) := by
  have h := Responds.refl w
  unfold Workspace.performCell
  split
  · exact h.push (by simp)
  · exact (h.putCell _ _).push (by simp)
  · split
    · exact h.push (by simp)
    · exact h.putCell _ _
  · exact (h.putCell _ _).push (by simp)
  · exact advance hclosed c cell _
  · exact h.batch _ _ _
  · split
    · exact h
    · unfold Workspace.synchronize
      exact (h.putCell _ _).push (by simp)
  · split
    · exact h
    split
    · exact h
    · exact (h.withTree _).push (by simp)
  · exact h.putCell _ _
  · split
    · exact h
    split
    · exact h
    · exact (h.withTree _).putCell _ _
  · refine (h.putCell _ _).push ?_
    split <;> simp

theorem onHeldCell {c : CellId} {f : Cell → Workspace} (hf : ∀ cell, w.Responds (f cell)) :
    w.Responds (w.onHeldCell c f) := by
  unfold Workspace.onHeldCell Workspace.onCell
  split
  · split
    · exact hf _
    · exact .refl w
  · exact .refl w

theorem answerCommand (w : Workspace) (id : CommandId) (answer : Answer) :
    w.Responds (w.answerCommand id answer).2 := by
  have h : ∀ commands, w.Responds ({ w with commands } : Workspace) :=
    fun _ => (Responds.refl w).of_same rfl rfl rfl
  unfold Workspace.answerCommand
  split
  · exact .refl w
  · rename_i command commands _
    cases answer with
    | outcome outcome => exact (h commands).receive _ _ _
    | computed => exact (h commands).receive _ _ _
    | unreadable e => exact h commands

theorem letGo (hclosed : w.Closed) (k : SubscriptionId) (ends : Bool) :
    w.Responds (w.letGo k ends) := by
  unfold Workspace.letGo
  rw [hclosed.subscriptions]
  exact .refl w

/-- An operation other than a subscription sets off answers at most. -/
theorem operate (hclosed : w.Closed) {op : Op} (hop : ¬op.Subscribes) :
    w.Responds (w.operate op).2 := by
  have h := Responds.refl w
  cases op with
  | child parent name start closed =>
    unfold Workspace.operate
    simp only
    split
    · exact h.of_same rfl rfl rfl
    · exact h
  | dropScope s | dropCell c | ask c name | unreadable e => exact h.of_same rfl rfl rfl
  | addDefinition s name p =>
    unfold Workspace.operate
    simp only
    split
    · split
      · exact (h.withTree _).push (by simp)
      · exact h
    · exact h
  | addReader s name p =>
    unfold Workspace.operate
    simp only
    split
    · split
      · exact h.of_same rfl rfl rfl
      · exact h
    · exact h
  | set n value | clear n =>
    unfold Workspace.operate
    simp only
    split
    · exact h.write _ _ _
    · exact h
  | move handle p =>
    cases handle with
    | definition n | reader n =>
      unfold Workspace.operate
      simp only
      split
      · exact h.push (by simp)
      · exact h
  | remove handle =>
    cases handle with
    | definition n | reader n =>
      unfold Workspace.operate
      simp only
      split
      · exact h.push (by simp)
      · exact h
  | subscribe handle reaction => exact absurd trivial hop
  | unsubscribe k | detach k => exact letGo hclosed k _
  | newCell position expression scope automatic =>
    refine setScope (Responds.putCell ?_ _ _) _ _ _
    exact h.of_same rfl rfl rfl
  | setScope c scope =>
    refine onHeldCell fun cell => ?_
    split
    · exact h.setScope _ _ _
    · exact h
  | setExpression c expression => exact onHeldCell fun cell => (h.push (by simp)).batch _ _ _
  | setPosition c position =>
    refine onHeldCell fun cell => ?_
    split
    · exact h
    · exact (h.push (by simp)).batch _ _ _
  | setAutomatic c automatic =>
    refine onHeldCell fun cell => (h.putCell _ _).push ?_
    split <;> simp
  | recalculate c => exact onHeldCell fun cell => h.push (by simp)
  | recalculateStale c =>
    refine onHeldCell fun cell => ?_
    split
    · exact h.push (by simp)
    · exact h
  | answer command answer =>
    unfold Workspace.operate
    simp only
    split
    · exact Responds.answerCommand w _ _
    · exact h
  | next =>
    unfold Workspace.operate
    simp only
    split
    · exact h
    · exact h.of_same rfl rfl rfl
  | reply text =>
    unfold Workspace.operate
    simp only
    split
    · exact h
    split
    · exact Responds.answerCommand w _ _
    · exact h

end Responds

theorem perform_responds (hclosed : w.Closed) {task : Task}
    (htask : ∀ op, task = .operate op → ¬op.Subscribes) : w.Responds (w.perform task) := by
  have h := Responds.refl w
  cases task with
  | operate op => exact .operate hclosed (htask op rfl)
  | notifyReaders s readers =>
    unfold perform
    cases readers with
    | nil => exact h
    | cons reader rest =>
      simp only
      split <;> exact h.push (by simp)
  | notifyDefinition s slot =>
    unfold perform
    simp only
    split
    · exact h.push (by simp)
    · exact h
  | tell listener value => exact .tell hclosed listener value
  | write s slot value => exact h.write s slot value
  | moveDefinition s slot p => exact h.spread s _
  | moveReader s reader p => exact h.spread s _
  | removeDefinition s slot => exact h.spread s _
  | removeReader s reader => exact h.spread s _
  | keepDefinition s slot name => exact h.of_same rfl rfl rfl
  | cancel id =>
    have hanswers : Responses ((w.backend.onCancel id).map .operate) := by
      rw [responses_map]
      rintro op hop op' ⟨⟩
      exact hclosed.answering.onCancel id op hop
    unfold perform
    simp only
    split
    · refine Responds.push ?_ hanswers
      exact h.of_same rfl rfl rfl
    · refine Responds.push ?_ hanswers
      exact h.of_same rfl rfl rfl
  | cell c task =>
    cases hcell : w.cell? c with
    | none =>
      rw [perform_cell_of_none hcell]
      exact h
    | some cell =>
      rw [perform_cell hcell]
      exact .performCell hclosed c cell task
  | releaseScope s | releaseCell c => exact h

end Workspace

end MathCanvas
