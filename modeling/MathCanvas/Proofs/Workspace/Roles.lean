import MathCanvas.Proofs.Workspace.Ranks

/-!
# Inputs and outputs alike

What a cell has in its scope is either an output or an input, and most of what happens to the ones
happens to the others: they are moved, removed and added by tasks of the same kind
(`Role.moving`, `Role.removing`, `Role.adding`). `Workspace.synchronize_spec` says which of these tasks
bring a cell in step with its expression, and `Workspace.setScope_spec` which of them take it out of
its scope.
-/

namespace MathCanvas

variable {c c' : CellId} {cell cell' : Cell} {name n : String} {s q : ScopeId} {x u : Nat}
  {y z : Position} {role k : Role} {task : Task}

/-- An output or an input that a cell has of a name. -/
def Cell.Has (cell : Cell) (name : String) (s : ScopeId) (x : Nat) : Role → Prop
  | .definition => cell.outputs[name]? = some ⟨s, x⟩
  | .reader => cell.reader? name = some (s, x)

theorem Cell.SamePost.has_iff (h : cell'.SamePost cell) :
    cell'.Has name s x role ↔ cell.Has name s x role := by
  cases role with
  | definition => rw [Has, Has, h.outputs]
  | reader => rw [Has, Has, h.reader?]

theorem Cell.has_congr (hinputs : cell'.inputs = cell.inputs)
    (houtputs : cell'.outputs = cell.outputs) :
    cell'.Has name s x role ↔ cell.Has name s x role := by
  cases role with
  | definition => rw [Has, Has, houtputs]
  | reader => rw [Has, Has, reader?, reader?, hinputs]

/-! ### Tasks about what a cell has -/

namespace Role

def moving (s : ScopeId) (x : Nat) (y : Position) : Role → Task
  | .definition => .moveDefinition s x y
  | .reader => .moveReader s x y

def removing (s : ScopeId) (x : Nat) : Role → Task
  | .definition => .removeDefinition s x
  | .reader => .removeReader s x

def adding (c : CellId) (s : ScopeId) (name : String) (y : Position) : Role → Task
  | .definition => .cell c (.addOutput s name y)
  | .reader => .cell c (.addInput s name y)

@[simp] theorem rank_moving (s : ScopeId) (x : Nat) (y : Position) (role : Role) :
    (role.moving s x y).rank = .shift := by cases role <;> rfl

@[simp] theorem rank_removing (s : ScopeId) (x : Nat) (role : Role) :
    (role.removing s x).rank = .shift := by cases role <;> rfl

@[simp] theorem rank_adding (c : CellId) (s : ScopeId) (name : String) (y : Position)
    (role : Role) : (role.adding c s name y).rank = .add := by cases role <;> rfl

theorem moving_inj : role.moving s x y = k.moving q u z ↔ role = k ∧ s = q ∧ x = u ∧ y = z := by
  cases role <;> cases k <;> simp [moving]

theorem removing_inj : role.removing s x = k.removing q u ↔ role = k ∧ s = q ∧ x = u := by
  cases role <;> cases k <;> simp [removing]

theorem adding_inj : role.adding c s name y = k.adding c' q n z ↔
    role = k ∧ c = c' ∧ s = q ∧ name = n ∧ y = z := by
  cases role <;> cases k <;> simp [adding]

theorem moving_ne_removing : role.moving s x y ≠ k.removing q u := by
  cases role <;> cases k <;> simp [moving, removing]

end Role

/-- The output for which a task adds a definition, or hands it over. -/
def Task.output? : Task → Option (CellId × String)
  | .cell c (.addOutput _ name _) | .cell c (.keepOutput _ name _) => some (c, name)
  | _ => none

theorem Task.eq_of_output? {driven : CellTask}
    (h : (Task.cell c driven).output? = some (c', name)) : c' = c := by
  cases driven <;> simp_all [output?]

theorem Task.rank_of_output? (h : task.output? = some (c, name)) :
    task.rank = .add ∨ task.rank = .keep := by
  unfold output? at h
  split at h <;> simp_all [rank]

theorem Task.rank_ne_idle_of_output? (h : task.output? = some (c, name)) : task.rank ≠ .idle := by
  rcases rank_of_output? h with hrank | hrank <;> simp [hrank]

/-! ### What a cell is to have -/

namespace Cell

/-- The names of which a cell is to have an output, or an input. -/
def wants (cell : Cell) : Role → List String
  | .definition => cell.expression.writtenNames
  | .reader => cell.expression.readNames

/-- The position at which it is to have it. -/
def place (cell : Cell) (name : String) : Role → Position
  | .definition => cell.position
  | .reader => readPosition cell.position cell.expression.writtenNames name

/-- The position at which it is to have it, given the outputs that it has. -/
def stand (cell : Cell) (name : String) : Role → Position
  | .definition => cell.position
  | .reader => readPosition cell.position cell.outputs.keys name

theorem has_reader_iff : cell.Has name s x .reader ↔
    ∃ i, cell.inputs[name]? = some i ∧ i.scope = s ∧ i.reader = x := by
  simp [Has, reader?]

/-- The cell with the inputs and outputs that it keeps when it is brought in step. -/
def inStep (cell : Cell) : Cell :=
  { cell with
    inputs := Std.TreeMap.ofList
      (cell.inputs.toList.filter fun entry => cell.expression.readNames.contains entry.1)
    outputs := Std.TreeMap.ofList
      (cell.outputs.toList.filter fun entry => cell.expression.writtenNames.contains entry.1) }

theorem has_inStep_iff : cell.inStep.Has name s x k ↔
    cell.Has name s x k ∧ name ∈ cell.wants k := by
  cases k with
  | definition =>
    rw [wants, ← List.contains_iff_mem]
    exact lookup_ofList_filter_eq_some_iff
  | reader =>
    have hlookup : ∀ i, cell.inStep.inputs[name]? = some i ↔
        cell.inputs[name]? = some i ∧ cell.expression.readNames.contains name = true :=
      fun i => lookup_ofList_filter_eq_some_iff
    simp only [has_reader_iff, hlookup, wants, List.contains_iff_mem]
    constructor
    · rintro ⟨i, ⟨hi, hname⟩, heq⟩
      exact ⟨⟨i, hi, heq⟩, hname⟩
    · rintro ⟨⟨i, hi, heq⟩, hname⟩
      exact ⟨i, ⟨hi, hname⟩, heq⟩

theorem not_has_unregistered : ¬cell.unregistered.Has name s x role := by
  cases role <;> simp [Has, reader?, unregistered]

end Cell

namespace Workspace

variable {w : Workspace}

/-- The tasks about inputs and outputs that are put on the agenda when a cell is brought in step. -/
inductive Steps (c : CellId) (cell : Cell) (s : ScopeId) : Task → Prop
  | remove {k : Role} {n : String} {q : ScopeId} {x : Nat} (has : cell.Has n q x k)
      (unwanted : n ∉ cell.wants k) : Steps c cell s (k.removing q x)
  | move {k : Role} {n : String} {q : ScopeId} {x : Nat} (has : cell.Has n q x k)
      (wanted : n ∈ cell.wants k) : Steps c cell s (k.moving q x (cell.place n k))
  | add {k : Role} {n : String} (wanted : n ∈ cell.wants k) :
      Steps c cell s (k.adding c s n (cell.place n k))

namespace Steps

theorem of_moving (h : Steps c cell s (role.moving q x y)) :
    ∃ n, cell.Has n q x role ∧ n ∈ cell.wants role ∧ y = cell.place n role := by
  generalize heq : role.moving q x y = task at h
  cases h with
  | remove => exact absurd heq Role.moving_ne_removing
  | @move k n _ _ has wanted =>
    obtain ⟨rfl, rfl, rfl, rfl⟩ := Role.moving_inj.mp heq
    exact ⟨n, has, wanted, rfl⟩
  | add => exact absurd (congrArg Task.rank heq) (by simp)

theorem of_removing (h : Steps c cell s (role.removing q x)) :
    ∃ n, cell.Has n q x role ∧ n ∉ cell.wants role := by
  generalize heq : role.removing q x = task at h
  cases h with
  | @remove k n _ _ has unwanted =>
    obtain ⟨rfl, rfl, rfl⟩ := Role.removing_inj.mp heq
    exact ⟨n, has, unwanted⟩
  | move => exact absurd heq.symm Role.moving_ne_removing
  | add => exact absurd (congrArg Task.rank heq) (by simp)

theorem of_adding (h : Steps c cell s (role.adding c' q n y)) :
    c' = c ∧ q = s ∧ n ∈ cell.wants role ∧ y = cell.place n role := by
  generalize heq : role.adding c' q n y = task at h
  cases h with
  | remove | move => exact absurd (congrArg Task.rank heq) (by simp)
  | add wanted =>
    obtain ⟨rfl, rfl, rfl, rfl, rfl⟩ := Role.adding_inj.mp heq
    exact ⟨rfl, rfl, wanted, rfl⟩

theorem rank (h : Steps c cell s task) : task.rank = .shift ∨ task.rank = .add := by
  cases h <;> simp

theorem of_output? (h : Steps c cell s task) (houtput : task.output? = some (c', name)) :
    c' = c ∧ name ∈ cell.wants .definition := by
  cases h with
  | @remove k | @move k => cases k <;> cases houtput
  | @add k n hname =>
    cases k with
    | reader => cases houtput
    | definition =>
      cases houtput
      exact ⟨rfl, hname⟩

end Steps

/-- What is not wanted any more goes, what is kept moves, and then all that is wanted is added. -/
theorem synchronize_spec (w : Workspace) (c : CellId) (cell : Cell) (s : ScopeId) :
    ∃ tasks, w.synchronize c cell s = (w.putCell c cell.inStep).push tasks ∧ Queued tasks ∧
      (∀ task ∈ tasks, task.rank = .idle → task = .releaseScope s) ∧
      ∀ task, task.rank ≠ .idle → (task ∈ tasks ↔ Steps c cell s task) := by
  have hinput : ∀ {name : String} {i : CellInput}, (name, i) ∈ cell.inputs.toList ↔
      cell.inputs[name]? = some i := Std.TreeMap.mem_toList_iff_getElem?_eq_some
  have houtput : ∀ {name : String} {o : CellOutput}, (name, o) ∈ cell.outputs.toList ↔
      cell.outputs[name]? = some o := Std.TreeMap.mem_toList_iff_getElem?_eq_some
  unfold Workspace.synchronize
  simp only [List.partition_eq_filter_filter]
  refine ⟨_, rfl, ?_, fun task hmem hidle => ?_,
    fun task hrank => ⟨fun hmem => ?_, fun hstep => ?_⟩⟩
  · rw [List.append_assoc, List.append_assoc, ← List.append_assoc (List.map _ _) (List.map _ _)]
    exact queued_of_ranks (by simp [Task.rank]) (by simp [Task.rank]) (by simp [Task.rank])
  · simp only [List.mem_append, List.mem_map, List.mem_singleton] at hmem
    rcases hmem with (((((⟨_, _, rfl⟩ | ⟨_, _, rfl⟩) | ⟨_, _, rfl⟩) | ⟨_, _, rfl⟩) | ⟨_, _, rfl⟩) |
      ⟨_, _, rfl⟩) | rfl
    all_goals first | rfl | cases hidle
  · simp only [List.mem_append, List.mem_map, List.mem_filter, Prod.exists, List.mem_singleton,
      hinput, houtput, Function.comp_apply, Bool.not_eq_true', ← Bool.not_eq_true,
      List.contains_iff_mem] at hmem
    rcases hmem with (((((⟨name, i, ⟨hi, hname⟩, rfl⟩ | ⟨name, o, ⟨ho, hname⟩, rfl⟩) |
      ⟨name, o, ⟨ho, hname⟩, rfl⟩) | ⟨name, i, ⟨hi, hname⟩, rfl⟩) | ⟨name, hname, rfl⟩) |
      ⟨name, hname, rfl⟩) | rfl
    · exact .remove (k := .reader) (Cell.has_reader_iff.mpr ⟨i, hi, rfl, rfl⟩) hname
    · exact .remove (k := .definition) (n := name) ho hname
    · exact .move (k := .definition) (n := name) ho hname
    · exact .move (k := .reader) (Cell.has_reader_iff.mpr ⟨i, hi, rfl, rfl⟩) hname
    · exact .add (k := .definition) hname
    · exact .add (k := .reader) hname
    · exact absurd rfl hrank
  · simp only [List.mem_append, List.mem_map, List.mem_filter, Prod.exists, List.mem_singleton,
      hinput, houtput, Function.comp_apply, Bool.not_eq_true', ← Bool.not_eq_true,
      List.contains_iff_mem]
    cases hstep with
    | @remove role name q x has unwanted =>
      cases role with
      | definition => exact .inl (.inl (.inl (.inl (.inl (.inr ⟨name, ⟨q, x⟩, ⟨has, unwanted⟩, rfl⟩)))))
      | reader =>
        obtain ⟨i, hi, rfl, rfl⟩ := Cell.has_reader_iff.mp has
        exact .inl (.inl (.inl (.inl (.inl (.inl ⟨name, i, ⟨hi, unwanted⟩, rfl⟩)))))
    | @move role name q x has wanted =>
      cases role with
      | definition => exact .inl (.inl (.inl (.inl (.inr ⟨name, ⟨q, x⟩, ⟨has, wanted⟩, rfl⟩))))
      | reader =>
        obtain ⟨i, hi, rfl, rfl⟩ := Cell.has_reader_iff.mp has
        exact .inl (.inl (.inl (.inr ⟨name, i, ⟨hi, wanted⟩, rfl⟩)))
    | @add role name wanted =>
      cases role with
      | definition => exact .inl (.inl (.inr ⟨name, wanted, rfl⟩))
      | reader => exact .inl (.inr ⟨name, wanted, rfl⟩)

/-- The tasks that are put on the agenda when a cell leaves its scope. -/
inductive Quitting (c : CellId) (cell : Cell) (scope : Option ScopeId) : Task → Prop
  | remove {k : Role} {n : String} {q : ScopeId} {x : Nat} (has : cell.Has n q x k) :
      Quitting c cell scope (k.removing q x)
  | enter : Quitting c cell scope (.cell c (.enter scope))

/-- All that a cell has goes, and then it enters the other scope. -/
theorem setScope_spec (w : Workspace) (c : CellId) (cell : Cell) {scope : Option ScopeId}
    (hscope : cell.scope ≠ scope) :
    ∃ tasks, w.setScope c cell scope = (w.putCell c cell.unregistered).push tasks ∧ Queued tasks ∧
      ∀ task, task.rank ≠ .idle → (task ∈ tasks ↔ Quitting c cell scope task) := by
  unfold Workspace.setScope
  rw [if_neg hscope]
  refine ⟨_, rfl, ?_, fun task hrank => ⟨fun hmem => ?_, fun hleaving => ?_⟩⟩
  · simp only [List.append_assoc]
    refine (allIdle_cancelTasks _).queued_append ?_
    rw [← List.append_assoc]
    refine Ranked.queued_append (r := .shift) ?_ rfl ?_ ?_
    · simp [Task.rank]
    · simp [Task.rank]
    · simp [Task.rank, Rank.before]
  · simp only [List.mem_append, List.mem_map, mem_values_iff_lookup, List.mem_cons,
      List.not_mem_nil, or_false] at hmem
    rcases hmem with ((hmem | ⟨i, ⟨name, hi⟩, rfl⟩) | ⟨o, ⟨name, ho⟩, rfl⟩) | rfl | rfl
    · exact absurd (allIdle_cancelTasks _ task hmem) hrank
    · exact .remove (k := .reader) (Cell.has_reader_iff.mpr ⟨i, hi, rfl, rfl⟩)
    · exact .remove (k := .definition) (n := name) ho
    · exact .enter
    · exact absurd rfl hrank
  · simp only [List.mem_append, List.mem_map, mem_values_iff_lookup, List.mem_cons,
      List.not_mem_nil, or_false]
    cases hleaving with
    | @remove role name q x has =>
      cases role with
      | definition => exact .inl (.inr ⟨⟨q, x⟩, ⟨name, has⟩, rfl⟩)
      | reader =>
        obtain ⟨i, hi, rfl, rfl⟩ := Cell.has_reader_iff.mp has
        exact .inl (.inl (.inr ⟨i, ⟨name, hi⟩, rfl⟩))
    | enter => exact .inr (.inl rfl)

end Workspace

end MathCanvas
