import MathCanvas.Proofs.Scope.Enrollment
import MathCanvas.Proofs.Workspace.Attuned
import MathCanvas.Proofs.Workspace.Places

/-!
# Tasks by which cells are enrolled

The tasks by which a cell is enrolled in its scope come in an order: what it had there moves or goes,
then it enters a scope or is brought in step, and at last what is missing is added. The `Rank` of a
task says to which of these it belongs, and on the agenda tasks stand in the order of their ranks
(`Queued`). All other tasks are idle: they leave everybody enrolled as they are, and set off nothing
but idle tasks (`Workspace.perform_rests`).
-/

namespace MathCanvas

/-- What a task has to do with who is enrolled where. -/
inductive Rank where
  /-- Nothing. -/
  | idle
  /-- A definition or reader moves or goes. -/
  | shift
  /-- A cell enters a scope, or is brought in step with its expression. -/
  | turn
  /-- A definition or reader is added. -/
  | add
  /-- A definition is handed over to its owner. -/
  | keep
  deriving DecidableEq

/-- Whether a task of one rank may stand before one of the other. Only what is idle stands before
somebody gets a definition. -/
def Rank.before : Rank → Rank → Bool
  | .idle, _ | _, .idle => true
  | .shift, later => later != .keep
  | .add, later | .keep, later => later == .add
  | .turn, _ => false

def Task.rank : Task → Rank
  | .moveDefinition .. | .moveReader .. | .removeDefinition .. | .removeReader .. => .shift
  | .cell _ (.enter _) | .cell _ .synchronize => .turn
  | .cell _ (.addOutput ..) | .cell _ (.addInput ..) => .add
  | .cell _ (.keepOutput ..) | .keepDefinition .. => .keep
  | _ => .idle

/-- All of the tasks are of one rank. -/
def Ranked (r : Rank) (tasks : List Task) : Prop := ∀ task ∈ tasks, task.rank = r

abbrev AllIdle (tasks : List Task) : Prop := Ranked .idle tasks

section Ranked

variable {r : Rank} {task : Task} {tasks more : List Task}

@[simp] theorem ranked_nil : Ranked r [] := by simp [Ranked]

@[simp] theorem ranked_cons : Ranked r (task :: tasks) ↔ task.rank = r ∧ Ranked r tasks := by
  simp [Ranked]

@[simp] theorem ranked_append : Ranked r (tasks ++ more) ↔ Ranked r tasks ∧ Ranked r more := by
  simp [Ranked, or_imp, forall_and]

@[simp] theorem ranked_map {α : Type} {f : α → Task} {l : List α} :
    Ranked r (l.map f) ↔ ∀ x ∈ l, (f x).rank = r := by
  simp [Ranked]

@[simp] theorem allIdle_cancelTasks (active : Option CommandId) :
    AllIdle (Workspace.cancelTasks active) := by
  simp [Workspace.cancelTasks, Task.rank]

theorem AllIdle.not_mem (h : AllIdle tasks) (htask : task.rank ≠ .idle) : task ∉ tasks :=
  fun hmem => htask (h task hmem)

/-- The tasks stand in the order of their ranks. -/
def Queued (tasks : List Task) : Prop :=
  tasks.Pairwise fun earlier later => earlier.rank.before later.rank = true

@[simp] theorem queued_nil : Queued [] := .nil

@[simp] theorem queued_cons :
    Queued (task :: tasks) ↔
      (∀ later ∈ tasks, task.rank.before later.rank = true) ∧ Queued tasks :=
  List.pairwise_cons

theorem queued_append :
    Queued (tasks ++ more) ↔ Queued tasks ∧ Queued more ∧
      ∀ earlier ∈ tasks, ∀ later ∈ more, earlier.rank.before later.rank = true :=
  List.pairwise_append

@[simp] theorem Rank.idle_before (r : Rank) : Rank.idle.before r = true := by cases r <;> rfl

@[simp] theorem Rank.before_idle (r : Rank) : r.before .idle = true := by cases r <;> rfl

theorem Ranked.queued_append (h : Ranked r tasks) (hself : r.before r = true) (hmore : Queued more)
    (hlater : ∀ later ∈ more, r.before later.rank = true) : Queued (tasks ++ more) := by
  refine MathCanvas.queued_append.mpr ⟨List.pairwise_of_forall_mem_list fun earlier he later hl => ?_,
    hmore, fun earlier he later hl => ?_⟩
  · rw [h earlier he, h later hl, hself]
  · rw [h earlier he, hlater later hl]

theorem AllIdle.queued (h : AllIdle tasks) : Queued tasks := by
  simpa using Ranked.queued_append h rfl queued_nil (by simp)

theorem AllIdle.queued_append (h : AllIdle tasks) (hmore : Queued more) : Queued (tasks ++ more) :=
  Ranked.queued_append h rfl hmore fun _ _ => Rank.idle_before _

theorem AllIdle.queued_append_right (h : AllIdle more) (htasks : Queued tasks) :
    Queued (tasks ++ more) :=
  MathCanvas.queued_append.mpr ⟨htasks, h.queued, fun _ _ later hl => by
    rw [h later hl, Rank.before_idle]⟩

/-- First all that moves or goes, then all that is added. -/
theorem queued_of_ranks {shifts adds : List Task} (hshifts : Ranked .shift shifts)
    (hadds : Ranked .add adds) (htasks : AllIdle tasks) : Queued (shifts ++ (adds ++ tasks)) := by
  refine hshifts.queued_append rfl (hadds.queued_append rfl htasks.queued fun later hl => ?_)
    fun later hl => ?_
  · rw [htasks later hl]
    rfl
  · rcases List.mem_append.mp hl with hl | hl
    · rw [hadds later hl]
      rfl
    · rw [htasks later hl]
      rfl

/-- Nothing else is to be done about those who are enrolled while a cell takes its turn. -/
theorem Queued.allIdle_of_turn (h : Queued (task :: tasks)) (htask : task.rank = .turn) :
    AllIdle tasks := by
  intro later hl
  have hbefore := (queued_cons.mp h).1 later hl
  rw [htask] at hbefore
  cases hlater : later.rank <;> rw [hlater] at hbefore <;> first | rfl | cases hbefore

/-- Behind a task that adds or hands over there are only others that add. -/
theorem Queued.rank_of_add (h : Queued (task :: tasks)) (htask : task.rank = .add ∨ task.rank = .keep)
    {later : Task} (hl : later ∈ tasks) : later.rank = .idle ∨ later.rank = .add := by
  have hbefore := (queued_cons.mp h).1 later hl
  rcases htask with htask | htask <;> rw [htask] at hbefore <;>
    cases hlater : later.rank <;> rw [hlater] at hbefore <;>
      first | exact .inl rfl | exact .inr rfl | cases hbefore

end Ranked

/-- Two cells that are enrolled in the same way. -/
structure Cell.SamePost (a b : Cell) : Prop where
  scope : a.scope = b.scope
  position : a.position = b.position
  outputs : a.outputs = b.outputs
  reader? : ∀ name, a.reader? name = b.reader? name

theorem Cell.SamePost.refl (a : Cell) : a.SamePost a := ⟨rfl, rfl, rfl, fun _ => rfl⟩

theorem Cell.SamePost.trans {a b c : Cell} (h : a.SamePost b) (h' : b.SamePost c) : a.SamePost c :=
  ⟨h.scope.trans h'.scope, h.position.trans h'.position, h.outputs.trans h'.outputs,
    fun name => (h.reader? name).trans (h'.reader? name)⟩

namespace Workspace

variable {w w' w'' : Workspace} {tasks : List Task} {c : CellId} {cell : Cell} {task : Task}

/-! ### Idle tasks -/

/-- Everybody stays enrolled, nobody gets a handle, and what is set off is idle. -/
structure Rests (w w' : Workspace) : Prop where
  rolls : w.tree.SameRolls w'.tree
  definitions : w'.definitions = w.definitions
  readers : w'.readers = w.readers
  agenda : ∃ tasks, w'.agenda = tasks ++ w.agenda ∧ AllIdle tasks

namespace Rests

theorem refl (w : Workspace) : w.Rests w := ⟨.refl _, rfl, rfl, [], rfl, ranked_nil⟩

theorem of_same (h : w.Rests w') (htree : w''.tree = w'.tree)
    (hdefinitions : w''.definitions = w'.definitions) (hreaders : w''.readers = w'.readers)
    (hagenda : w''.agenda = w'.agenda) : w.Rests w'' :=
  ⟨htree ▸ h.rolls, hdefinitions.trans h.definitions, hreaders.trans h.readers, hagenda ▸ h.agenda⟩

theorem withTree (h : w.Rests w') {tree : ScopeTree} (htree : w'.tree.SameRolls tree) :
    w.Rests ({ w' with tree } : Workspace) :=
  { h with rolls := h.rolls.trans htree }

theorem push (h : w.Rests w') (htasks : AllIdle tasks) : w.Rests (w'.push tasks) :=
  { h with
    agenda := by
      obtain ⟨earlier, hagenda, hearlier⟩ := h.agenda
      refine ⟨tasks ++ earlier, ?_, ranked_append.mpr ⟨htasks, hearlier⟩⟩
      rw [Workspace.push, hagenda, List.append_assoc] }

theorem putCell (h : w.Rests w') (c : CellId) (cell : Cell) : w.Rests (w'.putCell c cell) :=
  h.of_same rfl rfl rfl rfl

/-! ### The parts of a task -/

theorem spread (h : w.Rests w') (s : ScopeId) {result : List ReaderId × ScopeTree}
    (hresult : w'.tree.SameRolls result.2) : w.Rests (w'.spread s result) :=
  (h.withTree hresult).push (by simp [noticeTasks, Task.rank])

theorem write (htied : w.tree.WellTied) (s : ScopeId) (id : SlotId) (v : SlotValue) :
    w.Rests (w.write s id v) := by
  have hwrite := (Rests.refl w).withTree (ScopeTree.sameRolls_write htied s id v)
  unfold Workspace.write
  simp only
  split
  · exact hwrite.push (by simp [Task.rank])
  · exact hwrite

theorem tell (htied : w.tree.WellTied) (l : Listener) (v : SlotValue) : w.Rests (w.tell v l) := by
  have h := Rests.refl w
  unfold Workspace.tell
  split
  · split
    · exact h.spread _ (ScopeTree.sameRolls_setImported htied _ _ _)
    · exact h
  · split
    · exact h
    split
    · exact h
    split
    · exact h
    simp only
    split
    · exact h.putCell _ _
    · exact (h.putCell _ _).push (by simp [Task.rank])
  · split
    · exact h
    · refine Rests.push ?_ (by simp [Task.rank])
      exact h.of_same rfl rfl rfl rfl

theorem dispatch (w : Workspace) (c : CellId) (cell : Cell) (e : Expr) :
    w.Rests (w.dispatch c cell e) := by
  unfold Workspace.dispatch
  refine Rests.push ?_ (by simp [Task.rank])
  exact (Rests.refl w).of_same rfl rfl rfl rfl

theorem advance (w : Workspace) (c : CellId) (cell : Cell) (generation : Nat) :
    w.Rests (w.advance c cell generation) := by
  have h := Rests.refl w
  unfold Workspace.advance
  split
  · exact h
  split
  · exact h
  split
  · exact h.putCell _ _
  · exact .dispatch w c cell _
  · exact (h.putCell _ _).push (by simp [Task.rank])

theorem receive (h : w.Rests w') (id : CommandId) (c : CellId) (outcome : Outcome) :
    w.Rests (w'.receive id c outcome) := by
  unfold Workspace.receive
  split
  · exact h
  split
  · exact h
  simp only
  split
  · exact h.putCell _ _
  split
  · exact h.putCell _ _
  · exact (h.putCell _ _).push (by simp [Task.rank])

theorem onHeldCell {f : Cell → Workspace} (hf : ∀ cell, w.Rests (f cell)) :
    w.Rests (w.onHeldCell c f) := by
  unfold Workspace.onHeldCell Workspace.onCell
  split
  · split
    · exact hf _
    · exact .refl w
  · exact .refl w

theorem answerCommand (w : Workspace) (id : CommandId) (answer : Answer) :
    w.Rests (w.answerCommand id answer).2 := by
  have h : ∀ commands, w.Rests ({ w with commands } : Workspace) :=
    fun _ => (Rests.refl w).of_same rfl rfl rfl rfl
  unfold Workspace.answerCommand
  split
  · exact .refl w
  · rename_i command commands _
    cases answer with
    | outcome outcome => exact (h commands).receive _ _ _
    | computed => exact (h commands).receive _ _ _
    | unreadable e => exact h commands

theorem letGo (w : Workspace) (k : SubscriptionId) (ends : Bool) : w.Rests (w.letGo k ends) := by
  have h := Rests.refl w
  unfold Workspace.letGo
  split
  · exact h
  split
  · simp only
    split
    · split
      · split
        · exact (h.withTree (ScopeTree.sameRolls_ignoreDefinition _ _ _)).of_same rfl rfl rfl rfl
        · exact h.of_same rfl rfl rfl rfl
      · split
        · exact (h.withTree (ScopeTree.sameRolls_ignoreReader _ _ _)).of_same rfl rfl rfl rfl
        · exact h.of_same rfl rfl rfl rfl
    · exact h.of_same rfl rfl rfl rfl
  · exact h

theorem subscribe (w : Workspace) (handle : HandleRef) (reaction : Nat → SlotValue → List Op) :
    w.Rests (w.subscribe handle reaction) := by
  have h := Rests.refl w
  unfold Workspace.subscribe
  simp only
  split
  · split
    · exact (h.withTree (ScopeTree.sameRolls_listenToDefinition _ _ _)).of_same rfl rfl rfl rfl
    · exact h.of_same rfl rfl rfl rfl
  · split
    · exact (h.withTree (ScopeTree.sameRolls_listenToReader _ _ _)).of_same rfl rfl rfl rfl
    · exact h.of_same rfl rfl rfl rfl

theorem operate (htied : w.tree.WellTied) {op : Op} (hcalm : op.enlists = false) :
    w.Rests (w.operate op).2 := by
  have h := Rests.refl w
  cases op with
  | addDefinition | addReader | move | remove | newCell | setScope | setExpression
  | setPosition => cases hcalm
  | subscribe handle reaction => exact subscribe w handle reaction
  | child parent name start closed =>
    unfold Workspace.operate
    simp only
    split
    · exact (h.withTree (ScopeTree.sameRolls_child htied parent name start closed)).of_same
        rfl rfl rfl rfl
    · exact h
  | dropScope s | dropCell c | ask c name | unreadable e => exact h.of_same rfl rfl rfl rfl
  | set n value | clear n =>
    unfold Workspace.operate
    simp only
    split
    · exact .write htied _ _ _
    · exact h
  | unsubscribe k | detach k => exact letGo w k _
  | setAutomatic c automatic =>
    refine onHeldCell fun cell => (h.putCell _ _).push ?_
    split <;> simp [Task.rank]
  | recalculate c => exact onHeldCell fun cell => h.push (by simp [Task.rank])
  | recalculateStale c =>
    refine onHeldCell fun cell => ?_
    split
    · exact h.push (by simp [Task.rank])
    · exact h
  | answer command answer =>
    unfold Workspace.operate
    simp only
    split
    · exact .answerCommand w _ _
    · exact h
  | next =>
    unfold Workspace.operate
    simp only
    split
    · exact h
    · exact h.of_same rfl rfl rfl rfl
  | reply text =>
    unfold Workspace.operate
    simp only
    split
    · exact h
    split
    · exact .answerCommand w _ _
    · exact h

theorem performCell (w : Workspace) (c : CellId) (cell : Cell) {driven : CellTask}
    (hidle : (Task.cell c driven).rank = .idle) : w.Rests (w.performCell c cell driven) := by
  have h := Rests.refl w
  cases driven with
  | enter | synchronize | addOutput | keepOutput | addInput => cases hidle
  | refresh => exact h.push (by simp [Task.rank])
  | invalidate => exact (h.putCell _ _).push (by simp [Task.rank])
  | reconsider =>
    unfold Workspace.performCell
    simp only
    split
    · exact h.push (by simp [Task.rank])
    · exact h.putCell _ _
  | evaluate => exact (h.putCell _ _).push (by simp [Task.rank])
  | advance generation => exact .advance w c cell generation
  | endBatch outer always =>
    refine (h.putCell _ _).push ?_
    split <;> simp [Task.rank]

end Rests

/-- What an idle task leaves alone. -/
theorem perform_rests (htied : w.tree.WellTied) (hidle : task.rank = .idle)
    (htask : ∀ op, task = .operate op → op.enlists = false) : w.Rests (w.perform task) := by
  have h := Rests.refl w
  cases task with
  | operate op => exact .operate htied (htask op rfl)
  | notifyReaders s readers =>
    unfold perform
    cases readers with
    | nil => exact h
    | cons reader rest =>
      simp only
      split <;> exact h.push (by simp [Task.rank])
  | notifyDefinition s slot =>
    unfold perform
    simp only
    split
    · exact h.push (by simp [Task.rank])
    · exact h
  | tell listener value => exact .tell htied listener value
  | write s slot value => exact .write htied s slot value
  | moveDefinition | moveReader | removeDefinition | removeReader | keepDefinition => cases hidle
  | cancel id =>
    unfold perform
    simp only
    split
    · exact Rests.push (h.of_same rfl rfl rfl rfl) (by simp [Task.rank])
    · exact Rests.push (h.of_same rfl rfl rfl rfl) (by simp [Task.rank])
  | cell c driven =>
    cases hcell : w.cell? c with
    | none =>
      rw [perform_cell_of_none hcell]
      exact h
    | some cell =>
      rw [perform_cell hcell]
      exact .performCell w c cell hidle
  | releaseScope s | releaseCell c => exact h

/-! ### Cells that stay enrolled -/

/-- A run begins with the scope, the inputs and the outputs that are there. -/
theorem samePost_begin (cell : Cell) (unset : CellInput → Bool) :
    (cell.begin unset).2.SamePost cell := by
  unfold Cell.begin
  simp only
  split
  · exact ⟨rfl, rfl, rfl, fun _ => rfl⟩
  split
  · exact ⟨rfl, rfl, rfl, fun _ => rfl⟩
  · exact ⟨rfl, rfl, rfl, fun _ => rfl⟩
  split <;> exact ⟨rfl, rfl, rfl, fun _ => rfl⟩

theorem samePost_resumed (cell : Cell) (outer : Bool) :
    (cell.resumed outer).2.SamePost cell := by
  unfold Cell.resumed
  split <;> exact ⟨rfl, rfl, rfl, fun _ => rfl⟩

/-- A cell stays enrolled as it is. -/
theorem samePost_perform (hidle : task.rank = .idle)
    (hcalm : ∀ op, task = .operate op → op.enlists = false) {cell' : Cell}
    (hcell' : (w.perform task).cell? c = some cell') :
    ∃ cell, w.cell? c = some cell ∧ cell'.SamePost cell := by
  have hmakes : ¬w.Makes c task := by
    rintro ⟨-, position, expression, scope, automatic, rfl⟩
    exact absurd (hcalm _ rfl) (by simp [Op.enlists])
  have hsome := (perform_turn hmakes).numbered.2 (by rw [hcell']; simp)
  obtain ⟨cell, hcell⟩ := Option.ne_none_iff_exists'.mp hsome
  refine ⟨cell, hcell, ?_⟩
  cases perform_alters hcell hmakes hcell' with
  | same => exact .refl _
  | @told name i v hi =>
    refine ⟨rfl, rfl, rfl, fun n => (cell.reader?_insert name n _).trans ?_⟩
    split
    · rename_i hn
      rw [← hn, Cell.reader?, hi, Option.map_some]
    · rfl
  | enter | synchronize | keepOutput | addInput => cases hidle
  | unregister | edit | move => exact absurd (hcalm _ rfl) (by simp [Op.enlists])
  | evaluate => exact samePost_begin cell _
  | endBatch outer => exact samePost_resumed cell outer
  | _ => exact ⟨rfl, rfl, rfl, fun _ => rfl⟩

/-! ### Sweeping -/

/-- In a scope that stays, sweeping leaves everybody enrolled as they are. -/
theorem enrolled_sweep (htied : w.tree.WellTied) {s : ScopeId} {x : Nat} {name : String}
    {y : Position} {k : Role} :
    w.sweep.tree.Enrolled s x name y k ↔
      w.tree.Enrolled s x name y k ∧ w.sweep.tree.get? s ≠ none := by
  cases k with
  | definition =>
    have hevolves := evolves_sweep indifferent_sameSequences htied.allConsistent
    rcases hevolves.sequence_or s name with heq | hnone
    · rw [ScopeTree.enrolled_definition, ScopeTree.enrolled_definition, heq, ← heq]
      exact ⟨fun hx => ⟨hx, ScopeTree.Enrolled.get?_ne_none (k := .definition) hx⟩, And.left⟩
    · rw [ScopeTree.enrolled_definition, ScopeTree.sequence_of_none hnone]
      simp [hnone]
  | reader =>
    have hsheds : w.tree.Chained → w.tree.Sheds w.sweep.tree :=
      w.tree_sweep (R := fun t t' => t.Chained → t.Sheds t') (fun _ => .refl)
        (fun h h' hchained => (h hchained).trans (h' (h hchained).chained))
        (fun t s r l h => ScopeTree.sheds_ignoreReader h s r l) fun t s h => ScopeTree.sheds_remove h s
    have hsheds := hsheds htied.chained
    exact ⟨fun hx => ⟨hsheds.back hx, ScopeTree.Enrolled.get?_ne_none (k := .reader) hx⟩,
      fun hx => hsheds.kept hx.2 hx.1⟩

end Workspace

end MathCanvas
