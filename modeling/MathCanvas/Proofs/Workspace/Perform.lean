import MathCanvas.Proofs.Workspace.Coherent

/-!
# Tasks keep the imports in order

Whatever a cell does (`Coherent.performCell`) and whatever the client does (`Coherent.operate`), a
coherent workspace stays coherent. So does it with every task that leaves the imports alone
(`Coherent.perform`); telling an importer is left to the step that follows the notice.
-/

namespace MathCanvas

/-- A run begins with the inputs and outputs that are there. -/
theorem Cell.begin_same (cell : Cell) (unset : CellInput → Bool) :
    (cell.begin unset).2.inputs = cell.inputs ∧ (cell.begin unset).2.outputs = cell.outputs := by
  unfold Cell.begin
  cases cell.scope with
  | none => exact ⟨rfl, rfl⟩
  | some s =>
    simp only
    cases Plan.ofExpr cell.expression with
    | error e => exact ⟨rfl, rfl⟩
    | ok plan =>
      cases plan with
      | none => exact ⟨rfl, rfl⟩
      | some plan =>
        simp only
        split <;> exact ⟨rfl, rfl⟩

/-- A batch leaves the inputs and outputs that are there when it ends. -/
theorem Cell.resumed_same (cell : Cell) (outer : Bool) :
    (cell.resumed outer).2.inputs = cell.inputs ∧
      (cell.resumed outer).2.outputs = cell.outputs := by
  unfold Cell.resumed
  split <;> exact ⟨rfl, rfl⟩

namespace Workspace

namespace Coherent

variable {w w' : Workspace} {due due' : ScopeId → ReaderId → Prop} {t : ScopeTree} {s : ScopeId}
  {r : ReaderId} {id : SlotId} {readers : List ReaderId} {tasks : List Task} {c : CellId}
  {cell : Cell}

/-! ### Cells at work -/

theorem dispatch (h : w.Coherent due) (hcell : cell.Safe w.tree) (e : Expr) :
    (w.dispatch c cell e).Coherent due := by
  have hput : (w.putCell c { cell with
      active := some w.nextCommand, status := .evaluating }).Coherent due :=
    h.putCell (hcell.of_same (by rfl) (by rfl))
  have hsent : ({ w.putCell c { cell with active := some w.nextCommand, status := .evaluating } with
      nextCommand := w.nextCommand + 1
      commands := w.commands.dispatch w.nextCommand ⟨c, w.definedInputs cell, e⟩ } :
        Workspace).Coherent due := hput.of_same rfl rfl rfl rfl rfl
  exact (hsent.record _).push (safe_operate _)

/-- A cell goes on with its run after a stage, and the value of the stage goes to an output. -/
theorem complete (h : w.Coherent due) (hcell : cell.Safe w.tree) (plan : Plan) (v : Expr)
    {more : List Task} (hmore : ∀ task ∈ more, task.Safe w.tree) :
    ((w.putCell c (cell.complete plan v).2).push <|
      (cell.complete plan v).1.toList.map (fun o => Task.write o.scope o.slot (.defined v))
        ++ more).Coherent due := by
  refine (h.putCell (hcell.of_same (by rfl) (by rfl))).push (safe_append (safe_write hcell ?_ _) hmore)
  intro o ho
  have houtput : (cell.complete plan v).1 = some o := by simpa using ho
  obtain ⟨name, -, hname⟩ := Option.bind_eq_some_iff.mp houtput
  exact ⟨name, hname⟩

theorem advance (h : w.Coherent due) (hcell : cell.Safe w.tree) (generation : Nat) :
    (w.advance c cell generation).Coherent due := by
  unfold Workspace.advance
  split
  · exact h
  split
  · exact h
  rename_i plan hplan
  split
  · exact h.putCell (hcell.of_same (by rfl) (by rfl))
  · exact h.dispatch hcell _
  · refine h.complete hcell plan _ fun task htask => ?_
    rw [List.mem_singleton.mp htask]
    trivial

theorem receive (h : w.Coherent due) (command : CommandId) (c : CellId) (outcome : Outcome) :
    (w.receive command c outcome).Coherent due := by
  unfold Workspace.receive
  split
  · exact h
  rename_i cell hcell
  have hsafe := h.cell hcell
  split
  · exact h
  simp only
  split
  · exact h.putCell (hsafe.of_same (by rfl) (by rfl))
  · split
    · exact h.putCell (hsafe.of_same (by rfl) (by rfl))
    · refine h.complete (hsafe.of_same (by rfl) (by rfl)) _ _ fun task htask => ?_
      simp only [List.mem_cons, List.not_mem_nil, or_false] at htask
      rcases htask with rfl | rfl <;> trivial

theorem synchronize (h : w.Coherent due) (hcell : cell.Safe w.tree) (s : ScopeId) :
    (w.synchronize c cell s).Coherent due := by
  have hin : ∀ {name : String} {i : CellInput}, (name, i) ∈ cell.inputs.toList →
      w.tree.Lent i.scope i.reader :=
    fun hi => hcell.input (Std.TreeMap.mem_toList_iff_getElem?_eq_some.mp hi)
  unfold Workspace.synchronize
  simp only [List.partition_eq_filter_filter]
  refine (h.putCell ⟨fun hi => hcell.input (lookup_ofList_filter hi),
    fun ho => hcell.output (lookup_ofList_filter ho)⟩).push ?_
  simp only [List.append_assoc]
  refine safe_append ?_ (safe_append ?_ (safe_append ?_ (safe_append ?_ (safe_append ?_
    (safe_append ?_ ?_)))))
  all_goals intro task htask
  · obtain ⟨⟨name, i⟩, hi, rfl⟩ := List.mem_map.mp htask
    exact hin (List.mem_of_mem_filter hi)
  · obtain ⟨⟨name, o⟩, -, rfl⟩ := List.mem_map.mp htask
    trivial
  · obtain ⟨⟨name, o⟩, -, rfl⟩ := List.mem_map.mp htask
    trivial
  · obtain ⟨⟨name, i⟩, hi, rfl⟩ := List.mem_map.mp htask
    exact hin (List.mem_of_mem_filter hi)
  · obtain ⟨name, -, rfl⟩ := List.mem_map.mp htask
    trivial
  · obtain ⟨name, -, rfl⟩ := List.mem_map.mp htask
    trivial
  · rw [List.mem_singleton.mp htask]
    trivial

theorem batch (h : w.Coherent due) (hcell : cell.Safe w.tree) (always : Bool) :
    (w.batch c cell always).Coherent due := by
  refine (h.putCell (hcell.of_same (by rfl) (by rfl))).push fun task htask => ?_
  simp only [List.mem_cons, List.not_mem_nil, or_false] at htask
  rcases htask with rfl | rfl <;> trivial

theorem setScope (h : w.Coherent due) (hcell : cell.Safe w.tree) (scope : Option ScopeId) :
    (w.setScope c cell scope).Coherent due := by
  unfold Workspace.setScope
  split
  · exact h
  refine (h.putCell (.of_empty (by rfl) (by rfl))).push ?_
  simp only [List.append_assoc]
  refine safe_append (safe_cancelTasks _) (safe_append ?_ (safe_append ?_ ?_))
  all_goals intro task htask
  · obtain ⟨i, hi, rfl⟩ := List.mem_map.mp htask
    obtain ⟨name, hname⟩ := (mem_values_iff_lookup _ _).mp hi
    exact hcell.input hname
  · obtain ⟨o, -, rfl⟩ := List.mem_map.mp htask
    trivial
  · simp only [List.mem_cons, List.not_mem_nil, or_false] at htask
    rcases htask with rfl | rfl <;> trivial

theorem performCell (h : w.Coherent due) (hcell : w.cell? c = some cell) {task : CellTask}
    (htask : (Task.cell c task).Safe w.tree) : (w.performCell c cell task).Coherent due := by
  have hsafe := h.cell hcell
  cases task with
  | refresh =>
    refine h.push fun task htask => ?_
    simp only [List.mem_cons, List.not_mem_nil, or_false] at htask
    rcases htask with rfl | rfl <;> trivial
  | invalidate =>
    refine (h.putCell (hsafe.of_same (by rfl) (by rfl))).push
      (safe_append (safe_cancelTasks _) (safe_write hsafe (fun o ho => ?_) _))
    exact (mem_values_iff_lookup _ _).mp ho
  | reconsider =>
    unfold Workspace.performCell
    simp only
    split
    · exact h.push_one trivial
    · exact h.putCell (hsafe.of_same (by rfl) (by rfl))
  | evaluate =>
    obtain ⟨hin, hout⟩ := cell.begin_same fun i => (w.inputValue i).isUnset
    refine (h.putCell (hsafe.of_same hin hout)).push fun task htask => ?_
    obtain ⟨g, -, rfl⟩ := List.mem_map.mp htask
    trivial
  | advance generation => exact h.advance hsafe generation
  | enter scope => exact h.batch (hsafe.of_same (by rfl) (by rfl)) true
  | synchronize =>
    unfold Workspace.performCell
    simp only
    split
    · exact h
    · exact h.synchronize hsafe _
  | addOutput s name position =>
    unfold Workspace.performCell
    simp only
    split
    · exact h
    split
    · exact h
    · rename_i slot readers tree hadd
      obtain ⟨ht, hslot⟩ := ScopeTree.advances_addDefinition h.tied hadd
      refine h.withTree ht (fun task htask => ?_) (.inr (by simp))
      simp only [List.mem_cons, List.not_mem_nil, or_false] at htask
      rcases htask with rfl | rfl
      · trivial
      · exact hslot
  | keepOutput s name slot =>
    refine h.putCell ⟨hsafe.input, fun {name' o} ho => ?_⟩
    rw [lookup_insert] at ho
    split at ho
    · cases ho
      exact htask
    · exact hsafe.output ho
  | addInput s name position =>
    unfold Workspace.performCell
    simp only
    split
    · exact h
    split
    · exact h
    · rename_i reader readers tree hadd
      obtain ⟨ht, hreader⟩ := ScopeTree.advances_addReader h.tied hadd
      have hlisten := ScopeTree.advances_listenToReader ht.tied
        (by simp : ∀ c' n, Listener.input c name ≠ .importer c' n) hreader s
      have hboth := ht.trans hlisten
      refine (h.withTree_nil hboth).putCell ⟨fun {name' i} hi => ?_, fun ho => ?_⟩
      · rw [lookup_insert] at hi
        split at hi
        · cases hi
          exact hreader.extend hlisten.toExtends
        · exact (hsafe.input hi).extend hboth.toExtends
      · exact (hsafe.output ho).extend hboth.toExtends
  | endBatch outer always =>
    have hresumed := cell.resumed_same outer
    refine (h.putCell (hsafe.of_same hresumed.1 hresumed.2)).push fun task htask => ?_
    split at htask
    · rw [List.mem_singleton.mp htask]
      trivial
    · simp at htask

/-! ### Operations of the client -/

/-- A handle to a definition is made. -/
theorem keepDefinition (h : w.Coherent due) (hid : w.tree.LentSlot s id) (name : String) :
    ({ w with definitions := w.definitions.push ⟨s, id, name⟩ } : Workspace).Coherent due :=
  { h with
    definition := fun hh => by
      rcases Array.mem_push.mp hh with hh | rfl
      · exact h.definition hh
      · exact hid }

/-- A handle to a reader is made. -/
theorem keepReader (h : w.Coherent due) (hr : w.tree.Lent s r) (name : String) :
    ({ w with readers := w.readers.push ⟨s, r, name⟩ } : Workspace).Coherent due :=
  { h with
    reader := fun hh => by
      rcases Array.mem_push.mp hh with hh | rfl
      · exact h.reader hh
      · exact hr }

theorem onDefinition (h : w.Coherent due) (n : Nat) {f : DefinitionHandle → Workspace}
    (hf : ∀ handle : DefinitionHandle, w.tree.LentSlot handle.scope handle.slot →
      (f handle).Coherent due) :
    (match w.definitions[n]? with
      | some handle => f handle
      | none => w).Coherent due := by
  split
  · rename_i handle hhandle
    exact hf handle (h.definition (Array.mem_of_getElem? hhandle))
  · exact h

theorem onReader (h : w.Coherent due) (n : Nat) {f : ReaderHandle → Workspace}
    (hf : ∀ handle : ReaderHandle, w.tree.Lent handle.scope handle.reader →
      (f handle).Coherent due) :
    (match w.readers[n]? with
      | some handle => f handle
      | none => w).Coherent due := by
  split
  · rename_i handle hhandle
    exact hf handle (h.reader (Array.mem_of_getElem? hhandle))
  · exact h

theorem onHeldCell (h : w.Coherent due) (c : CellId) {f : Cell → Workspace}
    (hf : ∀ cell, w.cell? c = some cell → (f cell).Coherent due) :
    (w.onHeldCell c f).Coherent due := by
  unfold Workspace.onHeldCell Workspace.onCell
  split
  · split
    · rename_i cell hcell
      exact hf cell hcell
    · exact h
  · exact h

theorem answerCommand (h : w.Coherent due) (command : CommandId) (answer : Answer) :
    (w.answerCommand command answer).2.Coherent due := by
  have hcommands : ∀ commands, ({ w with commands } : Workspace).Coherent due :=
    fun _ => h.of_same rfl rfl rfl rfl rfl
  unfold Workspace.answerCommand
  rcases w.commands.take command with ⟨found, commands⟩
  cases found with
  | none => exact h
  | some found =>
    cases answer with
    | outcome outcome => exact (hcommands commands).receive _ _ _
    | computed => exact (hcommands commands).receive _ _ _
    | unreadable e => exact hcommands commands

/-- An operation of the client keeps the workspace coherent. -/
theorem operate (h : w.Coherent due) (op : Op) : (w.operate op).2.Coherent due := by
  cases op with
  | child parent name start closed =>
    unfold Workspace.operate
    simp only
    split
    · have ht := ScopeTree.advances_child h.tied parent name start closed 0
      exact (h.withTree_nil ht).of_same rfl rfl rfl rfl rfl
    · exact h
  | dropScope s => exact h.of_same rfl rfl rfl rfl rfl
  | addDefinition s name p =>
    unfold Workspace.operate
    simp only
    split
    · split
      · rename_i slot readers tree hadd
        obtain ⟨ht, hslot⟩ := ScopeTree.advances_addDefinition h.tied hadd
        refine h.withTree ht (fun task htask => ?_) (.inr (by simp))
        simp only [List.mem_cons, List.not_mem_nil, or_false] at htask
        rcases htask with rfl | rfl | rfl
        · trivial
        · exact hslot
        · trivial
      · exact h
    · exact h
  | addReader s name p =>
    unfold Workspace.operate
    simp only
    split
    · split
      · rename_i reader readers tree hadd
        obtain ⟨ht, hreader⟩ := ScopeTree.advances_addReader h.tied hadd
        exact (h.withTree_nil ht).keepReader hreader name
      · exact h
    · exact h
  | set n value => exact h.onDefinition n fun handle hlent => h.write hlent _
  | clear n => exact h.onDefinition n fun handle hlent => h.write hlent _
  | move handle p =>
    cases handle with
    | definition n => exact h.onDefinition n fun handle _ => h.push_one trivial
    | reader n => exact h.onReader n fun handle hlent => h.push_one hlent
  | remove handle =>
    cases handle with
    | definition n => exact h.onDefinition n fun handle _ => h.push_one trivial
    | reader n => exact h.onReader n fun handle hlent => h.push_one hlent
  | subscribe handle reaction => exact h.subscribe handle reaction
  | unsubscribe k => exact h.letGo k true
  | detach k => exact h.letGo k false
  | newCell position expression scope automatic =>
    have hcount : ({ w with
        nextCell := w.nextCell + 1
        heldCells := w.heldCells ++ [w.nextCell] } : Workspace).Coherent due :=
      h.of_same rfl rfl rfl rfl rfl
    have hempty : Cell.Safe w.tree { expression, position, automatic } := .of_empty rfl rfl
    exact (hcount.putCell hempty).setScope hempty _
  | setScope c scope =>
    refine h.onHeldCell c fun cell hcell => ?_
    split
    · exact h.setScope (h.cell hcell) scope
    · exact h
  | setExpression c expression =>
    refine h.onHeldCell c fun cell hcell => ?_
    have hpush : (w.push [.releaseCell c]).Coherent due := h.push_one trivial
    exact hpush.batch ((h.cell hcell).of_same (by rfl) (by rfl)) true
  | setPosition c position =>
    refine h.onHeldCell c fun cell hcell => ?_
    split
    · exact h
    have hpush : (w.push [.releaseCell c]).Coherent due := h.push_one trivial
    exact hpush.batch ((h.cell hcell).of_same (by rfl) (by rfl)) false
  | setAutomatic c automatic =>
    refine h.onHeldCell c fun cell hcell => ?_
    refine (h.putCell ((h.cell hcell).of_same (by rfl) (by rfl))).push fun task htask => ?_
    split at htask
    · simp only [List.mem_cons, List.not_mem_nil, or_false] at htask
      rcases htask with rfl | rfl <;> trivial
    · simp at htask
  | recalculate c =>
    refine h.onHeldCell c fun cell hcell => h.push fun task htask => ?_
    simp only [List.mem_cons, List.not_mem_nil, or_false] at htask
    rcases htask with rfl | rfl | rfl <;> trivial
  | recalculateStale c =>
    refine h.onHeldCell c fun cell hcell => ?_
    split
    · refine h.push fun task htask => ?_
      simp only [List.mem_cons, List.not_mem_nil, or_false] at htask
      rcases htask with rfl | rfl | rfl <;> trivial
    · exact h
  | dropCell c => exact h.of_same rfl rfl rfl rfl rfl
  | ask c name => exact h
  | answer command answer =>
    unfold Workspace.operate
    simp only
    split
    · exact h.answerCommand _ _
    · exact h
  | next =>
    unfold Workspace.operate
    simp only
    split
    · exact h
    · exact h.of_same rfl rfl rfl rfl rfl
  | reply text =>
    unfold Workspace.operate
    simp only
    split
    · exact h
    · split
      · exact h.answerCommand _ _
      · exact h
  | unreadable e => exact h

/-- A task that leaves the imports alone keeps the workspace coherent. -/
theorem perform (h : w.Coherent due) {task : Task} (hsafe : task.Safe w.tree)
    (hnotice : ∀ s readers, task ≠ .notifyReaders s readers) : (w.perform task).Coherent due := by
  cases task with
  | operate op => exact h.operate op
  | notifyReaders s readers => exact absurd rfl (hnotice s readers)
  | notifyDefinition s slot =>
    unfold Workspace.perform
    simp only
    split
    · rename_i value listeners hnotice
      refine h.push fun task htask => ?_
      obtain ⟨l, hl, rfl⟩ := List.mem_map.mp htask
      cases l with
      | importer c name =>
        -- an importer never listens to a definition
        unfold ScopeTree.definitionNotice? at hnotice
        simp only [Option.pure_def, Option.bind_eq_bind, Option.bind_eq_some_iff,
          Option.some.injEq, Prod.mk.injEq] at hnotice
        obtain ⟨scope, hscope, value', -, -, rfl⟩ := hnotice
        cases hls : scope.definitionListeners[slot]? with
        | none => simp [hls] at hl
        | some ls =>
          rw [hls, Option.getD_some] at hl
          exact absurd hl (h.tied.silent hscope hls)
      | input c name => trivial
      | client k => trivial
    · exact h
  | tell l value =>
    refine h.tell (fun s name heq => ?_) value
    subst heq
    exact hsafe
  | write s slot value => exact h.write hsafe value
  | moveDefinition s slot p => exact h.spread (ScopeTree.advances_moveDefinition h.tied s slot p)
  | moveReader s r p => exact h.spread (ScopeTree.advances_moveReader h.tied hsafe p)
  | removeDefinition s slot => exact h.spread (ScopeTree.advances_removeDefinition h.tied s slot)
  | removeReader s r => exact h.spread (ScopeTree.advances_removeReader h.tied hsafe)
  | keepDefinition s slot name =>
    exact h.keepDefinition hsafe name
  | cancel command =>
    unfold Workspace.perform
    simp only
    have hrecord := h.record (.cancelled command)
    refine Coherent.push ?_ (safe_operate _)
    split
    · exact hrecord
    · exact hrecord.of_same rfl rfl rfl rfl rfl
  | cell c task =>
    unfold Workspace.perform Workspace.onCell
    simp only
    split
    · rename_i cell hcell
      exact h.performCell hcell hsafe
    · exact h
  | releaseScope s => exact h
  | releaseCell c => exact h

end Coherent

end Workspace

end MathCanvas
