import MathCanvas.Proofs.Scope.Lifetime
import MathCanvas.Workspace.Run

/-!
# Links between operations

While changes are in progress, an importer may lag behind its reader. In a workspace that is
`Coherent`, every reader with such a link is among those that a task on the agenda is going to tell
about, or is `due` otherwise. The handles of the client, the inputs and outputs of the cells and
the tasks on the agenda belong to nobody's imports (`Cell.Safe`, `Task.Safe`), so that none of them
can move or remove a link.

What a task does to the workspace is put together from a few steps: the tree advances and the
readers with it are put on the agenda (`Coherent.withTree`), a cell is replaced (`Coherent.putCell`),
harmless tasks are added (`Coherent.push`).
-/

namespace MathCanvas

/-- A task that leaves the imports alone: what it refers to was made for others. -/
def Task.Safe (t : ScopeTree) : Task → Prop
  | .tell (.importer _ _) _ => False
  | .write s id _ => t.LentSlot s id
  | .moveReader s r _ => t.Lent s r
  | .removeReader s r => t.Lent s r
  | .keepDefinition s id _ => t.LentSlot s id
  | .cell _ (.keepOutput s _ id) => t.LentSlot s id
  | _ => True

/-- The inputs and outputs of a cell were made for it. -/
structure Cell.Safe (t : ScopeTree) (cell : Cell) : Prop where
  input : ∀ {name : String} {i : CellInput}, cell.inputs[name]? = some i → t.Lent i.scope i.reader
  output : ∀ {name : String} {o : CellOutput}, cell.outputs[name]? = some o →
    t.LentSlot o.scope o.slot

section Safe

variable {t : ScopeTree}

theorem safe_operate (ops : List Op) : ∀ task ∈ ops.map Task.operate, task.Safe t := by
  intro task htask
  obtain ⟨op, -, rfl⟩ := List.mem_map.mp htask
  trivial

theorem safe_cancelTasks (active : Option CommandId) :
    ∀ task ∈ Workspace.cancelTasks active, task.Safe t := by
  intro task htask
  obtain ⟨id, -, rfl⟩ := List.mem_map.mp htask
  trivial

theorem safe_append {tasks more : List Task} (h : ∀ task ∈ tasks, task.Safe t)
    (h' : ∀ task ∈ more, task.Safe t) : ∀ task ∈ tasks ++ more, task.Safe t := by
  intro task htask
  exact (List.mem_append.mp htask).elim (h task) (h' task)

/-- The writes of a value to some outputs of a cell. -/
theorem safe_write {cell : Cell} (h : cell.Safe t) {outputs : List CellOutput}
    (houtputs : ∀ o ∈ outputs, ∃ name : String, cell.outputs[name]? = some o) (v : SlotValue) :
    ∀ task ∈ outputs.map fun o => Task.write o.scope o.slot v, task.Safe t := by
  intro task htask
  obtain ⟨o, ho, rfl⟩ := List.mem_map.mp htask
  obtain ⟨name, hname⟩ := houtputs o ho
  exact h.output hname

end Safe

section Extends

variable {t t' : ScopeTree} {task : Task} {cell cell' : Cell}

theorem Task.Safe.extend (h : task.Safe t) (ht : t.Extends t') : task.Safe t' := by
  cases task with
  | tell l v =>
    cases l with
    | importer s name => exact h
    | input c name => trivial
    | client k => trivial
  | write s id v => exact ScopeTree.LentSlot.extend h ht
  | moveReader s r p => exact ScopeTree.Lent.extend h ht
  | removeReader s r => exact ScopeTree.Lent.extend h ht
  | keepDefinition s id name => exact ScopeTree.LentSlot.extend h ht
  | cell c task =>
    cases task with
    | keepOutput s name id => exact ScopeTree.LentSlot.extend h ht
    | _ => trivial
  | _ => trivial

theorem Cell.Safe.extend (h : cell.Safe t) (ht : t.Extends t') : cell.Safe t' :=
  ⟨fun hi => (h.input hi).extend ht, fun ho => (h.output ho).extend ht⟩

/-- A cell with no other inputs and outputs. -/
theorem Cell.Safe.of_same (h : cell.Safe t) (hin : cell'.inputs = cell.inputs)
    (hout : cell'.outputs = cell.outputs) : cell'.Safe t :=
  ⟨fun hi => h.input (hin ▸ hi), fun ho => h.output (hout ▸ ho)⟩

theorem Cell.Safe.of_empty (hin : cell.inputs = {}) (hout : cell.outputs = {}) : cell.Safe t :=
  ⟨fun hi => by simp [hin] at hi, fun ho => by simp [hout] at ho⟩

end Extends

namespace Workspace

/-- The imports are in order, except for readers that are going to be told about or are due. -/
structure Coherent (w : Workspace) (due : ScopeId → ReaderId → Prop) : Prop where
  tied : w.tree.WellTied
  cell : ∀ {c : CellId} {cell : Cell}, w.cell? c = some cell → cell.Safe w.tree
  definition : ∀ {h : DefinitionHandle}, h ∈ w.definitions → w.tree.LentSlot h.scope h.slot
  reader : ∀ {h : ReaderHandle}, h ∈ w.readers → w.tree.Lent h.scope h.reader
  safe : ∀ {task : Task}, task ∈ w.agenda → task.Safe w.tree
  noticed : ∀ {p : ScopeId} {r : ReaderId}, w.tree.Unsettled p r →
    due p r ∨ ∃ readers, r ∈ readers ∧ .notifyReaders p readers ∈ w.agenda

namespace Coherent

variable {w w' : Workspace} {due due' : ScopeId → ReaderId → Prop} {t : ScopeTree} {s : ScopeId}
  {r : ReaderId} {id : SlotId} {readers : List ReaderId} {tasks : List Task} {c : CellId}
  {cell : Cell}

/-! ### Steps -/

theorem mono (h : w.Coherent due) (hdue : ∀ p r, w.tree.Unsettled p r → due p r →
    due' p r ∨ ∃ readers, r ∈ readers ∧ .notifyReaders p readers ∈ w.agenda) : w.Coherent due' :=
  { h with noticed := fun hu => (h.noticed hu).elim (hdue _ _ hu) .inr }

/-- The rest of the workspace does not matter. -/
theorem of_same (h : w.Coherent due) (htree : w'.tree = w.tree) (hcells : w'.cells = w.cells)
    (hdefinitions : w'.definitions = w.definitions) (hreaders : w'.readers = w.readers)
    (hagenda : w'.agenda = w.agenda) : w'.Coherent due := by
  refine ⟨htree ▸ h.tied, fun hc => ?_, fun hh => ?_, fun hh => ?_, fun htask => ?_, fun hu => ?_⟩
  · rw [cell?, hcells] at hc
    exact htree ▸ h.cell hc
  · exact htree ▸ h.definition (hdefinitions ▸ hh)
  · exact htree ▸ h.reader (hreaders ▸ hh)
  · exact htree ▸ h.safe (hagenda ▸ htask)
  · rw [hagenda]
    exact h.noticed (htree ▸ hu)

/-- The tree goes on, and those who have to be told are put on the agenda. -/
theorem withTree (h : w.Coherent due) (ht : w.tree.Advances t s readers)
    (hsafe : ∀ task ∈ tasks, task.Safe t)
    (htold : readers = [] ∨ .notifyReaders s readers ∈ tasks) :
    ({ w with tree := t }.push tasks).Coherent due where
  tied := ht.tied
  cell hc := (h.cell hc).extend ht.toExtends
  definition hh := (h.definition hh).extend ht.toExtends
  reader hh := (h.reader hh).extend ht.toExtends
  safe htask := by
    rcases List.mem_append.mp htask with htask | htask
    · exact hsafe _ htask
    · exact (h.safe htask).extend ht.toExtends
  noticed {p r} hu := by
    rcases ht.unsettled hu with hu | ⟨rfl, hr⟩
    · refine (h.noticed hu).imp_right ?_
      rintro ⟨readers, hr, hmem⟩
      exact ⟨readers, hr, List.mem_append_right _ hmem⟩
    · rcases htold with rfl | htold
      · simp at hr
      · exact .inr ⟨readers, hr, List.mem_append_left _ htold⟩

/-- The tree goes on, and nobody has to be told. -/
theorem withTree_nil (h : w.Coherent due) (ht : w.tree.Advances t s []) :
    ({ w with tree := t } : Workspace).Coherent due := by
  have hpush := h.withTree ht (by simp : ∀ task ∈ ([] : List Task), task.Safe t) (.inl rfl)
  exact hpush

theorem push (h : w.Coherent due) (hsafe : ∀ task ∈ tasks, task.Safe w.tree) :
    (w.push tasks).Coherent due :=
  h.withTree (.refl h.tied 0) hsafe (.inl rfl)

theorem push_one (h : w.Coherent due) {task : Task} (hsafe : task.Safe w.tree) :
    (w.push [task]).Coherent due :=
  h.push fun _ htask => List.mem_singleton.mp htask ▸ hsafe

theorem putCell (h : w.Coherent due) (hcell : cell.Safe w.tree) :
    (w.putCell c cell).Coherent due :=
  { h with
    cell := fun {c' cell'} hc => by
      have hlookup : (w.cells.insert c cell)[c']? = some cell' := hc
      rw [lookup_insert] at hlookup
      split at hlookup
      · cases hlookup
        exact hcell
      · exact h.cell hlookup }

theorem withSubscriptions (h : w.Coherent due) (subscriptions : Array Subscription) :
    ({ w with subscriptions } : Workspace).Coherent due :=
  h.of_same rfl rfl rfl rfl rfl

theorem record (h : w.Coherent due) (e : Event) : (w.record e).Coherent due :=
  h.of_same rfl rfl rfl rfl rfl

/-! ### Values -/

/-- If listeners do not hear of a write, no reader has to be told. -/
theorem readers_write_of_unchanged (t : ScopeTree) (s : ScopeId) (id : SlotId) (v : SlotValue)
    (h : (t.write s id v).1 = false) : (t.write s id v).2.1 = [] := by
  unfold ScopeTree.write at h ⊢
  cases hs : t.get? s with
  | none => rfl
  | some scope =>
    simp only [hs, Bool.not_eq_eq_eq_not, Bool.not_false] at h
    simp only
    unfold Bindings.setValue
    cases hslot : scope.bindings.slots[id]? with
    | none => rfl
    | some slot =>
      rw [Bindings.value?, hslot, Option.map_some, Option.any_some] at h
      simp only [h, if_true]

theorem write (h : w.Coherent due) (hid : w.tree.LentSlot s id) (v : SlotValue) :
    (w.write s id v).Coherent due := by
  have ht := ScopeTree.advances_write h.tied hid v
  have hquiet := readers_write_of_unchanged w.tree s id v
  unfold Workspace.write
  rcases hwrite : w.tree.write s id v with ⟨changed, readers, tree⟩
  rw [hwrite] at ht hquiet
  simp only at ht hquiet ⊢
  cases changed with
  | true =>
    rw [if_pos rfl]
    refine h.withTree ht (fun task htask => ?_) (.inr (by simp))
    simp only [List.mem_cons, List.not_mem_nil, or_false] at htask
    rcases htask with rfl | rfl | rfl <;> trivial
  | false =>
    rw [if_neg (by simp)]
    rw [hquiet rfl] at ht
    exact h.withTree_nil ht

/-- Goes on after a change of a scope's bindings. -/
theorem spread (h : w.Coherent due) {result : List ReaderId × ScopeTree}
    (ht : w.tree.Advances result.2 s result.1) : (w.spread s result).Coherent due := by
  refine h.withTree ht (fun task htask => ?_) (.inr (by simp [noticeTasks]))
  simp only [noticeTasks, List.mem_cons, List.not_mem_nil, or_false] at htask
  rcases htask with rfl | rfl <;> trivial

/-- Telling somebody else than an importer. -/
theorem tell (h : w.Coherent due) {l : Listener} (hl : ∀ s name, l ≠ .importer s name)
    (v : SlotValue) : (w.tell v l).Coherent due := by
  cases l with
  | importer s name => exact absurd rfl (hl s name)
  | input c name =>
    unfold Workspace.tell
    simp only
    split
    · exact h
    rename_i cell hcell
    split
    · exact h
    rename_i i hi
    split
    · exact h
    have hsafe : Cell.Safe w.tree { cell with inputs := cell.inputs.insert name { i with last := v } } := by
      refine ⟨fun {name' i'} hi' => ?_, (h.cell hcell).output⟩
      rw [lookup_insert] at hi'
      split at hi'
      · cases hi'
        have hlent := (h.cell hcell).input hi
        exact hlent
      · exact (h.cell hcell).input hi'
    split
    · exact h.putCell (hsafe.of_same (by rfl) (by rfl))
    · refine (h.putCell hsafe).push fun task htask => ?_
      simp only [List.mem_cons, List.not_mem_nil, or_false] at htask
      rcases htask with rfl | rfl <;> trivial
  | client k =>
    unfold Workspace.tell
    simp only
    split
    · exact h
    · exact ((h.withSubscriptions _).record _).push (safe_operate _)

theorem letGo (h : w.Coherent due) (k : SubscriptionId) (ends : Bool) :
    (w.letGo k ends).Coherent due := by
  unfold Workspace.letGo
  split
  · exact h
  rename_i sub hsub
  split
  · have hgone := h.withSubscriptions (w.subscriptions.set! k { sub with held := false })
    simp only
    split
    · split
      · split
        · exact hgone.withTree_nil (ScopeTree.advances_ignoreDefinition hgone.tied _ _ 0)
        · exact hgone
      · split
        · exact hgone.withTree_nil (ScopeTree.advances_ignoreReader hgone.tied (by simp) _ _ 0)
        · exact hgone
    · exact hgone
  · exact h

theorem subscribe (h : w.Coherent due) (handle : HandleRef)
    (reaction : Nat → SlotValue → List Op) : (w.subscribe handle reaction).Coherent due := by
  have hsub := h.withSubscriptions (w.subscriptions.push { handle, reaction })
  unfold Workspace.subscribe
  simp only
  split
  · split
    · exact hsub.withTree_nil (ScopeTree.advances_listenToDefinition hsub.tied (by simp) _ _ 0)
    · exact hsub
  · split
    · rename_i hh hhandle
      have hlent := hsub.reader (Array.mem_of_getElem? hhandle)
      exact hsub.withTree_nil (ScopeTree.advances_listenToReader hsub.tied (by simp) hlent 0)
    · exact hsub

end Coherent

end Workspace

end MathCanvas
