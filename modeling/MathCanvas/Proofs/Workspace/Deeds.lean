import MathCanvas.Proofs.Workspace.Orderly

/-!
# Deeds

What a task does about commands and about the runs that wait for them is written down as a list of
deeds (`Workspace.deeds`): a command is sent, something happens to a cell that makes its run out of
date, a cell is invalidated, a command is cancelled, an answer arrives. What a task does not write
down it does not do: see `Workspace.perform_tacit` for commands, and `Workspace.errand_perform` for
the commands that cells wait for.
-/

namespace MathCanvas

/-- The stage of a run: the number of the run, and what is still to be done. -/
structure Leg where
  generation : Nat
  plan : Option Plan
  deriving DecidableEq, Inhabited

def Cell.leg (cell : Cell) : Leg := ⟨cell.generation, cell.plan⟩

/-- The command that a cell waits for, and the stage of the run that waits. -/
def Cell.errand (cell : Cell) : Option (CommandId × Leg) := cell.active.map fun id => (id, cell.leg)

theorem Cell.SameRun.errand_eq {cell cell' : Cell} (h : cell'.SameRun cell) :
    cell'.errand = cell.errand := by
  rw [Cell.errand, Cell.errand, Cell.leg, Cell.leg, h.active, h.generation, h.plan]

theorem Cell.errand_eq_none {cell : Cell} (h : cell.active = none) : cell.errand = none := by
  rw [Cell.errand, h, Option.map_none]

/-- The expression that the run of a cell sends next. -/
def Cell.request? (cell : Cell) : Option Expr :=
  match cell.plan.map fun plan => plan.next cell.expression with
  | some (PlanAction.request e) => some e
  | _ => none

inductive Deed where
  /-- A cell sends a command at a stage of its run. -/
  | sent (c : CellId) (id : CommandId) (leg : Leg)
  /-- What a cell computed, or is about to compute, becomes out of date. -/
  | disturbed (c : CellId)
  /-- A cell gives up its run. -/
  | invalidated (c : CellId)
  | cancelled (id : CommandId)
  /-- An answer is taken as the value of a stage. -/
  | applied (id : CommandId) (leg : Leg)
  /-- An answer puts an end to a run. -/
  | failed (id : CommandId)
  /-- A command is answered, but nobody waits for it. -/
  | ignored (id : CommandId)
  /-- A command is answered by something that cannot be read. -/
  | withdrawn (id : CommandId)
  deriving DecidableEq, Inhabited

/-- The command that a deed is about. -/
def Deed.command? : Deed → Option CommandId
  | .disturbed _ | .invalidated _ => none
  | .sent _ id _ | .cancelled id | .applied id _ | .failed id | .ignored id | .withdrawn id => some id

/-- What a command comes to by an answer that can be read. -/
def Answer.outcome? (answer : Answer) (command : Command) : Option Outcome :=
  match answer with
  | .outcome o => some o
  | .computed => some (Calculator.evaluate command.inputs command.expression)
  | .unreadable _ => none

/-- Whether a task neither begins an operation nor cancels a command. -/
def Task.plain : Task → Bool
  | .operate _ | .cancel _ => false
  | _ => true

/-- None of the tasks begins an operation or cancels a command. -/
def Plain (tasks : List Task) : Prop := ∀ task ∈ tasks, task.plain = true

section Plain

variable {task : Task} {tasks more : List Task}

@[simp] theorem plain_nil : Plain [] := by simp [Plain]

@[simp] theorem plain_cons : Plain (task :: tasks) ↔ task.plain = true ∧ Plain tasks :=
  List.forall_mem_cons

@[simp] theorem plain_append : Plain (tasks ++ more) ↔ Plain tasks ∧ Plain more :=
  List.forall_mem_append

@[simp] theorem plain_map {α : Type} {f : α → Task} {l : List α} :
    Plain (l.map f) ↔ ∀ x ∈ l, (f x).plain = true :=
  List.forall_mem_map

theorem Plain.operate_not_mem (h : Plain tasks) (op : Op) : .operate op ∉ tasks :=
  fun hop => Bool.noConfusion (h _ hop)

theorem Plain.cancel_not_mem (h : Plain tasks) (id : CommandId) : .cancel id ∉ tasks :=
  fun hid => Bool.noConfusion (h _ hid)

end Plain

/-- Whether an operation brings an answer. -/
def Op.Replies : Op → Prop
  | .answer _ _ | .reply _ => True
  | _ => False

namespace Workspace

/-- The command that an operation answers, and the answer. -/
def answering? (w : Workspace) : Op → Option (CommandId × Answer)
  | .answer command answer =>
    match w.backend.channel with
    | .direct => (command.or w.newestCommand?).map fun id => (id, answer)
    | .queue _ => none
  | .reply text =>
    (Reply.parse? (text w.nextCommand)).bind fun reply =>
      (w.namedCommand? reply.id).map fun id => (id, .outcome reply.outcome)
  | _ => none

/-- What becomes of a command when its answer arrives. -/
def arrival (w : Workspace) (id : CommandId) (command : Command) (answer : Answer) : Deed :=
  match answer.outcome? command with
  | none => .withdrawn id
  | some outcome =>
    match w.cell? command.cell with
    | none => .ignored id
    | some cell =>
      if cell.active ≠ some id then .ignored id
      else
        match outcome with
        | .ok _ => .applied id cell.leg
        | .error _ => .failed id

/-- What an answer does: nothing, if the command is not pending. -/
def replyDeeds (w : Workspace) (entry : CommandId × Answer) : List Deed :=
  ((w.commands.find? entry.1).map fun command => w.arrival entry.1 command entry.2).toList

/-- The cell of a number, if the client refers to it. -/
def heldCell? (w : Workspace) (c : CellId) : Option Cell :=
  if w.heldCells.contains c then w.cell? c else none

/-- Whether a value of an input is news to a cell. -/
def informs (w : Workspace) (c : CellId) (name : String) (value : SlotValue) : Bool :=
  ((w.cell? c).bind (·.inputs[name]?)).any fun i => !i.last.valueEq value

/-- What an operation does at once. -/
def opDeeds (w : Workspace) : Op → List Deed
  | .setScope c scope =>
    if scope.all w.heldScopes.contains && (w.heldCell? c).any (·.scope != scope) then
      [.disturbed c, .invalidated c]
    else []
  | .setExpression c _ | .recalculate c => if (w.heldCell? c).isSome then [.disturbed c] else []
  | .recalculateStale c => if (w.heldCell? c).any (·.status == .stale) then [.disturbed c] else []
  | op => ((w.answering? op).map w.replyDeeds).getD []

/-- What a task does about commands and about the runs that wait for them. -/
def deeds (w : Workspace) : Task → List Deed
  | .operate op => w.opDeeds op
  | .tell (.input c name) value => if w.informs c name value then [.disturbed c] else []
  | .cancel id => [.cancelled id]
  | .cell c .invalidate => if (w.cell? c).isSome then [.invalidated c] else []
  | .cell c (.advance generation) =>
    match w.cell? c with
    | none => []
    | some cell =>
      if cell.generation = generation ∧ cell.request?.isSome then [.sent c w.nextCommand cell.leg]
      else []
  | _ => []

variable {w w' w'' : Workspace} {c : CellId} {cell cell' : Cell} {task : Task} {tasks : List Task}
  {op : Op}

theorem onHeldCell_eq (w : Workspace) (c : CellId) (f : Cell → Workspace) :
    w.onHeldCell c f = (w.heldCell? c).elim w f := by
  unfold onHeldCell onCell heldCell?
  split
  · split
    · rename_i cell hcell
      rw [hcell]
      rfl
    · rename_i hnone
      rw [hnone]
      rfl
  · rfl

theorem cell?_of_heldCell? (h : w.heldCell? c = some cell) : w.cell? c = some cell := by
  unfold heldCell? at h
  split at h
  · exact h
  · cases h

/-! ### Answers -/

theorem operate_of_replies (hop : op.Replies) :
    (w.operate op).2 = (w.answering? op).elim w fun entry => (w.answerCommand entry.1 entry.2).2 := by
  cases op with
  | answer command answer =>
    unfold operate answering?
    simp only
    cases hchannel : w.backend.channel with
    | direct =>
      cases hid : command.or w.newestCommand? with
      | none => rfl
      | some id => rfl
    | queue name =>
      cases command.or w.newestCommand? <;> rfl
  | reply text =>
    unfold operate answering?
    simp only
    cases Reply.parse? (text w.nextCommand) with
    | none => rfl
    | some reply =>
      simp only [Option.bind_some]
      cases w.namedCommand? reply.id <;> rfl
  | _ => exact hop.elim

theorem opDeeds_of_replies (hop : op.Replies) :
    w.opDeeds op = ((w.answering? op).map w.replyDeeds).getD [] := by
  cases op with
  | answer | reply => rfl
  | _ => exact hop.elim

theorem arrival_command? (w : Workspace) (id : CommandId) (command : Command) (answer : Answer) :
    (w.arrival id command answer).command? = some id := by
  unfold arrival
  split
  · rfl
  split
  · rfl
  split
  · rfl
  split <;> rfl

/-- Whatever an answer does is about the command that it answers. -/
theorem command?_of_replies (hop : op.Replies) {deed : Deed} (hdeed : deed ∈ w.opDeeds op) :
    deed.command? ≠ none := by
  rw [opDeeds_of_replies hop] at hdeed
  cases hanswering : w.answering? op with
  | none => simp [hanswering] at hdeed
  | some entry =>
    rw [hanswering, Option.map_some, Option.getD_some] at hdeed
    obtain ⟨command, -, rfl⟩ := Option.map_eq_some_iff.mp (Option.mem_toList.mp hdeed)
    rw [arrival_command?]
    exact Option.some_ne_none _

/-- An answer to a command that nobody waits for. -/
theorem operate_of_not_pending (hop : op.Replies)
    (hquiet : ∀ deed ∈ w.opDeeds op, deed.command? = none) : (w.operate op).2 = w := by
  rw [opDeeds_of_replies hop] at hquiet
  rw [operate_of_replies hop]
  cases hanswering : w.answering? op with
  | none => rfl
  | some entry =>
    rw [hanswering, Option.map_some, Option.getD_some] at hquiet
    rw [Option.elim_some, answerCommand, DispatchQueue.take]
    cases hfind : w.commands.find? entry.1 with
    | none => rfl
    | some command =>
      have harrival := hquiet (w.arrival entry.1 command entry.2) (by simp [replyDeeds, hfind])
      rw [arrival_command?] at harrival
      cases harrival

/-! ### Invalidations -/

/-- A cell that changes its scope gives up its run at once. -/
theorem operate_setScope (w : Workspace) (c : CellId) (scope : Option ScopeId) :
    w.opDeeds (.setScope c scope) = [] ∧ (w.operate (.setScope c scope)).2 = w ∨
      ∃ cell, w.cell? c = some cell ∧
        w.opDeeds (.setScope c scope) = [.disturbed c, .invalidated c] ∧
        (w.operate (.setScope c scope)).2 = (w.putCell c cell.unregistered).push
          (cancelTasks cell.active ++ (cell.inputs.values.map fun i => .removeReader i.scope i.reader) ++
            (cell.outputs.values.map fun o => .removeDefinition o.scope o.slot) ++
            [.cell c (.enter scope), .releaseCell c]) := by
  have hoperate : (w.operate (.setScope c scope)).2 = w.onHeldCell c fun cell =>
      if scope.all w.heldScopes.contains then w.setScope c cell scope else w := rfl
  rw [hoperate, onHeldCell_eq, opDeeds]
  cases hcell : w.heldCell? c with
  | none => exact .inl ⟨by simp, rfl⟩
  | some cell =>
    rw [Option.elim_some, Option.any_some]
    by_cases hheld : scope.all w.heldScopes.contains = true
    · rw [if_pos hheld, hheld, Bool.true_and]
      by_cases hsame : cell.scope = scope
      · exact .inl ⟨by simp [hsame], by rw [setScope, if_pos hsame]⟩
      · refine .inr ⟨cell, cell?_of_heldCell? hcell, by simp [hsame], ?_⟩
        rw [setScope, if_neg hsame]
    · rw [if_neg hheld, Bool.not_eq_true _ |>.mp hheld]
      exact .inl ⟨rfl, rfl⟩

theorem invalidated_mem_deeds (h : .invalidated c ∈ w.deeds task) :
    task = .cell c .invalidate ∨ ∃ scope, task = .operate (.setScope c scope) := by
  cases task with
  | operate op =>
    have hreplies : ¬op.Replies := fun hop => command?_of_replies hop h rfl
    cases op with
    | setScope c' scope =>
      rw [deeds] at h
      rcases w.operate_setScope c' scope with ⟨hnone, -⟩ | ⟨cell, -, hdeeds, -⟩
      · simp [hnone] at h
      · rw [hdeeds] at h
        simp only [List.mem_cons, Deed.invalidated.injEq, reduceCtorEq, List.not_mem_nil, or_false,
          false_or] at h
        exact .inr ⟨scope, by rw [h]⟩
    | setExpression | recalculate | recalculateStale =>
      simp only [deeds, opDeeds] at h
      split at h <;> simp at h
    | answer | reply => exact absurd trivial hreplies
    | _ => simp [deeds, opDeeds, answering?] at h
  | tell l v =>
    cases l with
    | input c' name =>
      simp only [deeds] at h
      split at h <;> simp at h
    | _ => simp [deeds] at h
  | cell c' driven =>
    cases driven with
    | invalidate =>
      simp only [deeds] at h
      split at h
      · simp only [List.mem_singleton, Deed.invalidated.injEq] at h
        exact .inl (by rw [h])
      · simp at h
    | advance generation =>
      simp only [deeds] at h
      split at h
      · simp at h
      · split at h <;> simp at h
    | _ => simp [deeds] at h
  | _ => simp [deeds] at h

theorem disturbed_mem_deeds (h : .disturbed c ∈ w.deeds task) :
    (∃ name value, task = .tell (.input c name) value ∧ w.informs c name value = true) ∨
      (∃ scope, task = .operate (.setScope c scope)) ∨
      ∃ cell, w.heldCell? c = some cell ∧ ((∃ e, task = .operate (.setExpression c e)) ∨
        task = .operate (.recalculate c) ∨
        task = .operate (.recalculateStale c) ∧ cell.status = .stale) := by
  cases task with
  | operate op =>
    have hreplies : ¬op.Replies := fun hop => command?_of_replies hop h rfl
    cases op with
    | setScope c' scope =>
      rw [deeds] at h
      rcases w.operate_setScope c' scope with ⟨hnone, -⟩ | ⟨cell, -, hdeeds, -⟩
      · simp [hnone] at h
      · rw [hdeeds] at h
        simp only [List.mem_cons, Deed.disturbed.injEq, reduceCtorEq, List.not_mem_nil,
          or_false] at h
        exact .inr (.inl ⟨scope, by rw [h]⟩)
    | setExpression c' e =>
      simp only [deeds, opDeeds] at h
      split at h
      · rename_i hheld
        obtain rfl : c = c' := by simpa using h
        obtain ⟨cell, hcell⟩ := Option.isSome_iff_exists.mp hheld
        exact .inr (.inr ⟨cell, hcell, .inl ⟨e, rfl⟩⟩)
      · cases h
    | recalculate c' =>
      simp only [deeds, opDeeds] at h
      split at h
      · rename_i hheld
        obtain rfl : c = c' := by simpa using h
        obtain ⟨cell, hcell⟩ := Option.isSome_iff_exists.mp hheld
        exact .inr (.inr ⟨cell, hcell, .inr (.inl rfl)⟩)
      · cases h
    | recalculateStale c' =>
      simp only [deeds, opDeeds] at h
      split at h
      · rename_i hheld
        obtain rfl : c = c' := by simpa using h
        cases hcell : w.heldCell? c with
        | none => simp [hcell] at hheld
        | some cell =>
          rw [hcell, Option.any_some] at hheld
          exact .inr (.inr ⟨cell, rfl, .inr (.inr ⟨rfl, eq_of_beq hheld⟩)⟩)
      · cases h
    | answer | reply => exact absurd trivial hreplies
    | _ => simp [deeds, opDeeds, answering?] at h
  | tell l v =>
    cases l with
    | input c' name =>
      simp only [deeds] at h
      split at h
      · rename_i hinforms
        obtain rfl : c = c' := by simpa using h
        exact .inl ⟨name, v, rfl, hinforms⟩
      · cases h
    | _ => cases h
  | cell c' driven =>
    cases driven with
    | invalidate =>
      simp only [deeds] at h
      split at h <;> simp at h
    | advance generation =>
      simp only [deeds] at h
      split at h
      · simp at h
      · split at h <;> simp at h
    | _ => cases h
  | cancel => simp [deeds] at h
  | _ => cases h

/-- A cell that is invalidated gives up its run, and its command is cancelled before anything
else. -/
theorem perform_of_invalidated (h : .invalidated c ∈ w.deeds task) :
    ∃ cell new more, w.cell? c = some cell ∧
      w.perform task = (w.putCell c new).push (cancelTasks cell.active ++ more) ∧
      new.active = none ∧ Plain more := by
  rcases invalidated_mem_deeds h with rfl | ⟨scope, rfl⟩
  · cases hcell : w.cell? c with
    | none => simp [deeds, hcell] at h
    | some cell =>
      exact ⟨cell, cell.invalidated, _, rfl, perform_cell hcell _, rfl, by simp [Task.plain]⟩
  · rcases w.operate_setScope c scope with ⟨hnone, -⟩ | ⟨cell, hcell, -, hperform⟩
    · rw [deeds, hnone] at h
      cases h
    · simp only [List.append_assoc] at hperform
      exact ⟨cell, cell.unregistered, _, hcell, hperform, rfl, by simp [Task.plain]⟩

/-! ### What becomes of commands -/

/-- What a task does about commands, with the deeds that it writes down. -/
inductive Handles (w : Workspace) : Task → List Deed → Workspace → Prop
  /-- Nothing. -/
  | leave {task : Task} (quiet : ∀ deed ∈ w.deeds task, deed.command? = none) :
      Handles w task (w.deeds task) (w.perform task)
  | send {c : CellId} {cell : Cell} {e : Expr} (present : w.cell? c = some cell)
      (request : cell.request? = some e) : Handles w (.cell c (.advance cell.generation))
        [.sent c w.nextCommand cell.leg] (w.dispatch c cell e)
  | cancel (id : CommandId) {commands : DispatchQueue CommandId Command}
      (taken : commands = w.commands.cancel id ∨
        commands = w.commands ∧ w.backend.keepsCancelled = true) :
      Handles w (.cancel id) [.cancelled id] { w.record (.cancelled id) with commands }
  /-- The answer cannot be read. -/
  | withdraw {op : Op} {id : CommandId} {answer : Answer} {command : Command}
      (direct : w.backend.channel = .direct) (answers : w.answering? op = some (id, answer))
      (pending : w.commands.find? id = some command) : Handles w (.operate op) [.withdrawn id]
        { w with commands := w.commands.cancel id }
  /-- The cell does not wait for the answer. -/
  | ignore {op : Op} {id : CommandId} {answer : Answer} {command : Command}
      (answers : w.answering? op = some (id, answer))
      (pending : w.commands.find? id = some command)
      (unwanted : ∀ cell, w.cell? command.cell = some cell → cell.active ≠ some id) :
      Handles w (.operate op) [.ignored id] { w with commands := w.commands.cancel id }
  /-- The cell waits for the answer. -/
  | take {op : Op} {id : CommandId} {answer : Answer} {command : Command} {cell new : Cell}
      {tasks : List Task} {deed : Deed} (answers : w.answering? op = some (id, answer))
      (pending : w.commands.find? id = some command) (present : w.cell? command.cell = some cell)
      (active : cell.active = some id) (deed_eq : deed = .applied id cell.leg ∨ deed = .failed id)
      (freed : new.active = none) (tasks_eq : ∀ task ∈ tasks,
        (∃ s slot v, task = .write s slot v) ∨ (∃ g, task = .cell command.cell (.advance g)) ∨
          task = .releaseCell command.cell) :
      Handles w (.operate op) [deed]
        ((({ w with commands := w.commands.cancel id } : Workspace).putCell command.cell new).push
          tasks)

/-- A run that comes to a stage with a request sends it. -/
theorem advance_of_request {e : Expr} (h : cell.request? = some e) :
    w.advance c cell cell.generation = w.dispatch c cell e := by
  unfold Cell.request? at h
  split at h
  · rename_i hnext
    obtain ⟨plan, hplan, hrequest⟩ := Option.map_eq_some_iff.mp hnext
    cases h
    rw [advance, if_neg (not_not.mpr rfl), hplan]
    simp only [hrequest]
  · cases h

theorem handles_answer {id : CommandId} {answer : Answer} {command : Command}
    (hanswers : w.answering? op = some (id, answer))
    (hpending : w.commands.find? id = some command) :
    w.Handles (.operate op) [w.arrival id command answer] (w.answerCommand id answer).2 := by
  have hreceive : ∀ outcome, answer.outcome? command = some outcome →
      w.Handles (.operate op) [w.arrival id command answer]
        (({ w with commands := w.commands.cancel id } : Workspace).receive id command.cell
          outcome) := by
    intro outcome houtcome
    unfold arrival receive
    rw [houtcome]
    simp only
    have hsame : ({ w with commands := w.commands.cancel id } : Workspace).cell? command.cell =
        w.cell? command.cell := rfl
    rw [hsame]
    cases hcell : w.cell? command.cell with
    | none => exact .ignore hanswers hpending (by simp [hcell])
    | some cell =>
      simp only
      by_cases hactive : cell.active = some id
      · rw [if_neg (not_not.mpr hactive), if_neg (not_not.mpr hactive)]
        have hput : ∀ {deed : Deed} {new : Cell}, deed = .applied id cell.leg ∨ deed = .failed id →
            new.active = none → w.Handles (.operate op) [deed]
              ((({ w with commands := w.commands.cancel id } : Workspace).putCell command.cell
                new).push []) :=
          fun hdeed hnew => .take hanswers hpending hcell hactive hdeed hnew (by simp)
        cases outcome with
        | error e =>
          refine hput (.inr rfl) ?_
          rfl
        | ok value =>
          simp only
          split
          · refine hput (.inl rfl) ?_
            rfl
          · refine .take hanswers hpending hcell hactive (.inl rfl) ?_ fun task htask => ?_
            · rfl
            · simp only [List.mem_append, List.mem_map, List.mem_cons, List.not_mem_nil,
                or_false] at htask
              rcases htask with ⟨o, -, rfl⟩ | htask
              · exact .inl ⟨_, _, _, rfl⟩
              · exact .inr (htask.imp_left fun heq => ⟨_, heq⟩)
      · rw [if_pos hactive, if_pos hactive]
        refine .ignore hanswers hpending fun found hfound => ?_
        exact Option.some.inj (hcell.symm.trans hfound) ▸ hactive
  unfold answerCommand
  rw [DispatchQueue.take, hpending]
  cases answer with
  | outcome o => exact hreceive o rfl
  | computed => exact hreceive _ rfl
  | unreadable e =>
    refine .withdraw ?_ hanswers hpending
    cases op with
    | answer command' answer' =>
      unfold answering? at hanswers
      simp only at hanswers
      split at hanswers
      · assumption
      · cases hanswers
    | reply text =>
      obtain ⟨reply, -, hreply⟩ := Option.bind_eq_some_iff.mp hanswers
      obtain ⟨id', -, heq⟩ := Option.map_eq_some_iff.mp hreply
      cases heq
    | _ => cases hanswers

/-- A task does nothing about commands that is not written down. -/
theorem perform_handles (hcancel : ∀ id, w.backend.onCancel id = []) (task : Task) :
    w.Handles task (w.deeds task) (w.perform task) := by
  cases task with
  | operate op =>
    by_cases hop : op.Replies
    · cases hanswering : w.answering? op with
      | none => exact .leave (by simp [deeds, opDeeds_of_replies hop, hanswering])
      | some entry =>
        obtain ⟨id, answer⟩ := entry
        cases hfind : w.commands.find? id with
        | none => exact .leave (by simp [deeds, opDeeds_of_replies hop, hanswering, replyDeeds, hfind])
        | some command =>
          have hdeeds : w.deeds (.operate op) = [w.arrival id command answer] := by
            simp [deeds, opDeeds_of_replies hop, hanswering, replyDeeds, hfind]
          have hperform : w.perform (.operate op) = (w.answerCommand id answer).2 := by
            rw [perform, operate_of_replies hop, hanswering]
            rfl
          rw [hdeeds, hperform]
          exact handles_answer hanswering hfind
    · refine .leave fun deed hdeed => ?_
      cases op with
      | answer | reply => exact absurd trivial hop
      | setScope | setExpression | recalculate | recalculateStale =>
        simp only [deeds, opDeeds] at hdeed
        split at hdeed
        · simp only [List.mem_cons, List.not_mem_nil, or_false] at hdeed
          rcases hdeed with rfl | rfl <;> rfl
        · cases hdeed
      | _ => simp [deeds, opDeeds, answering?] at hdeed
  | cancel id =>
    have hperform : ∀ commands, ({ w.record (.cancelled id) with commands } : Workspace).push
        ((w.backend.onCancel id).map .operate) = { w.record (.cancelled id) with commands } := by
      intro commands
      rw [hcancel]
      rfl
    unfold perform
    simp only
    split
    · rename_i hkeeps
      exact (congrArg (w.Handles _ _) (hperform w.commands)).mpr (.cancel id (.inr ⟨rfl, hkeeps⟩))
    · exact (congrArg (w.Handles _ _) (hperform _)).mpr (.cancel id (.inl rfl))
  | cell c driven =>
    cases driven with
    | advance generation =>
      cases hcell : w.cell? c with
      | none => exact .leave (by simp [deeds, hcell])
      | some cell =>
        by_cases hsends : cell.generation = generation ∧ cell.request?.isSome
        · obtain ⟨rfl, hrequest⟩ := hsends
          obtain ⟨e, he⟩ := Option.isSome_iff_exists.mp hrequest
          have hdeeds : w.deeds (.cell c (.advance cell.generation)) =
              [.sent c w.nextCommand cell.leg] := by simp [deeds, hcell, he]
          rw [hdeeds, perform_cell hcell, performCell, advance_of_request he]
          exact .send hcell he
        · exact .leave (by simp [deeds, hcell, hsends])
    | invalidate =>
      refine .leave fun deed hdeed => ?_
      simp only [deeds] at hdeed
      split at hdeed
      · obtain rfl := List.mem_singleton.mp hdeed
        rfl
      · cases hdeed
    | _ => exact .leave (by simp [deeds])
  | tell l v =>
    refine .leave fun deed hdeed => ?_
    cases l with
    | input c name =>
      simp only [deeds] at hdeed
      split at hdeed
      · obtain rfl := List.mem_singleton.mp hdeed
        rfl
      · cases hdeed
    | _ => cases hdeed
  | _ => exact .leave (by simp [deeds])

end Workspace

end MathCanvas
