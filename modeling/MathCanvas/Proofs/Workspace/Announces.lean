import MathCanvas.Proofs.Scope.Attendance
import MathCanvas.Proofs.Workspace.Resting

/-!
# Tasks announce what they change

If a reader observes another value after a task, its listeners are going to be told of it, and as
long as it is not removed they stay the same (`Workspace.Announces`). Nothing but a notice tells an
input of a value (`Workspace.perform_announces`), and a definition is going to be written only if it
is one of a cell that the task rouses (`Workspace.Discreet`).
-/

namespace MathCanvas

namespace Workspace

variable {w w' w'' : Workspace} {due : ScopeId → ReaderId → Prop} {c : CellId} {cell : Cell}
  {s p : ScopeId} {r : ReaderId} {readers : List ReaderId} {tree : ScopeTree} {task t : Task}
  {tasks more : List Task} {op : Op} {id : CommandId}

/-- A task that `task` may put on the agenda: it tells no input, and if it writes a definition, this
is one of a cell that `task` rouses. The definition is cleared only when the cell is invalidated. -/
def Permits (w : Workspace) (task : Task) : Task → Prop
  | .tell (.input _ _) _ => False
  | .write s x v => ∃ (c : CellId) (cell : Cell) (name : String), w.cell? c = some cell ∧
      cell.outputs[name]? = some ⟨s, x⟩ ∧ w.Rouses c task ∧
        (v = .unset → task = .cell c .invalidate)
  | _ => True

/-- The tasks that `task` puts on the agenda disturb nobody but the cells that `task` rouses. -/
def Discreet (w : Workspace) (task : Task) (tasks : List Task) : Prop :=
  ∀ t ∈ tasks, w.Permits task t

@[simp] theorem discreet_nil : w.Discreet task [] := by simp [Discreet]

@[simp] theorem discreet_cons :
    w.Discreet task (t :: tasks) ↔ w.Permits task t ∧ w.Discreet task tasks :=
  List.forall_mem_cons

@[simp] theorem discreet_append :
    w.Discreet task (tasks ++ more) ↔ w.Discreet task tasks ∧ w.Discreet task more :=
  List.forall_mem_append

@[simp] theorem discreet_map {α : Type} {f : α → Task} {l : List α} :
    w.Discreet task (l.map f) ↔ ∀ x ∈ l, w.Permits task (f x) := List.forall_mem_map

@[simp] theorem discreet_cancelTasks (active : Option CommandId) :
    w.Discreet task (cancelTasks active) := by
  simp [cancelTasks, Permits]

/-- A stage is completed, and its value goes to an output of the cell. -/
theorem discreet_complete (hcell : w.cell? c = some cell) (hrouses : w.Rouses c task)
    {before : Cell} (hsame : before.outputs = cell.outputs) (plan : Plan) (value : Expr)
    (hmore : w.Discreet task more) :
    w.Discreet task ((before.complete plan value).1.toList.map
      (fun o => .write o.scope o.slot (.defined value)) ++ more) := by
  refine discreet_append.mpr ⟨discreet_map.mpr fun o ho => ?_, hmore⟩
  have houtput : (plan.complete before.expression value).1.bind (before.outputs[·]?) = some o :=
    Option.mem_toList.mp ho
  obtain ⟨name, -, hname⟩ := Option.bind_eq_some_iff.mp houtput
  exact ⟨c, cell, name, hcell, hsame ▸ hname, hrouses, nofun⟩

/-- The client has a handle to the reader. -/
def Lends (w : Workspace) (p : ScopeId) (r : ReaderId) : Prop :=
  ∃ handle ∈ w.readers, handle.scope = p ∧ handle.reader = r

/-- What becomes of the readers when a task is performed, and what is put on the agenda for the
listeners. Others come and go only among those who listen to a reader of the client's, and the client
gets a handle to a reader only when it is new. -/
structure Announces (w : Workspace) (task : Task) (w' : Workspace) : Prop where
  /-- A reader observes what it did, or its listeners are going to be told. -/
  told : ∀ {p : ScopeId} {r : ReaderId} {now : SlotValue}, w.tree.Given p r →
    w'.tree.readerValue? p r = some now → ∃ before, w.tree.readerValue? p r = some before ∧
      (now.same before ∨ ∃ readers, r ∈ readers ∧ .notifyReaders p readers ∈ w'.agenda)
  attends : ∀ {p : ScopeId} {r : ReaderId}, w.tree.Lent p r → task ≠ .removeReader p r →
    ¬w.Lends p r → w'.tree.listeners p r = w.tree.listeners p r
  lends : ∀ {p : ScopeId} {r : ReaderId}, w'.Lends p r → w.Lends p r ∨ ¬w.tree.Given p r
  backend : w'.backend = w.backend
  agenda : ∃ tasks, w'.agenda = tasks ++ w.agenda ∧ w.Discreet task tasks

namespace Announces

theorem refl (w : Workspace) : w.Announces task w :=
  ⟨fun _ hnow => ⟨_, hnow, .inl (SlotValue.same_refl _)⟩, fun _ _ _ => rfl, .inl, rfl, [],
    rfl, discreet_nil⟩

theorem of_same (h : w.Announces task w') (htree : w''.tree = w'.tree)
    (hreaders : w''.readers = w'.readers) (hbackend : w''.backend = w'.backend)
    (hagenda : w''.agenda = w'.agenda) : w.Announces task w'' := by
  obtain ⟨told, attends, lends, backend, agenda⟩ := h
  rw [← htree, ← hagenda] at told
  rw [← htree] at attends
  unfold Lends at lends
  rw [← hreaders] at lends
  exact ⟨told, attends, lends, hbackend.trans backend, hagenda ▸ agenda⟩

theorem push (h : w.Announces task w') (htasks : w.Discreet task tasks) :
    w.Announces task (w'.push tasks) where
  told hr hnow := by
    obtain ⟨before, hbefore, hsame⟩ := h.told hr hnow
    refine ⟨before, hbefore, hsame.imp_right ?_⟩
    rintro ⟨readers, hmem, htask⟩
    exact ⟨readers, hmem, List.mem_append_right _ htask⟩
  attends := h.attends
  lends := h.lends
  backend := h.backend
  agenda := by
    obtain ⟨earlier, hagenda, hearlier⟩ := h.agenda
    refine ⟨tasks ++ earlier, ?_, discreet_append.mpr ⟨htasks, hearlier⟩⟩
    rw [Workspace.push, hagenda, List.append_assoc]

theorem putCell (h : w.Announces task w') (c : CellId) (cell : Cell) :
    w.Announces task (w'.putCell c cell) := h.of_same rfl rfl rfl rfl

/-- The tree changes, and those who have to be told are put on the agenda. -/
theorem of_told (htold : ∀ {p : ScopeId} {r : ReaderId} {now : SlotValue}, w.tree.Given p r →
      tree.readerValue? p r = some now → ∃ before, w.tree.readerValue? p r = some before ∧
        (now.same before ∨ p = s ∧ r ∈ readers))
    (hattends : ∀ {p : ScopeId} {r : ReaderId}, w.tree.Lent p r → task ≠ .removeReader p r →
      ¬w.Lends p r → tree.listeners p r = w.tree.listeners p r)
    (hnotified : readers = [] ∨ .notifyReaders s readers ∈ tasks) (htasks : w.Discreet task tasks) :
    w.Announces task (({ w with tree } : Workspace).push tasks) where
  told hr hnow := by
    obtain ⟨before, hbefore, hsame⟩ := htold hr hnow
    refine ⟨before, hbefore, hsame.imp_right ?_⟩
    rintro ⟨rfl, hmem⟩
    rcases hnotified with rfl | hnotified
    · cases hmem
    · exact ⟨readers, hmem, List.mem_append_left _ hnotified⟩
  attends := hattends
  lends := .inl
  backend := rfl
  agenda := ⟨tasks, rfl, htasks⟩

theorem withTree (htree : w.tree.Advances tree s readers) (hattends : w.tree.Attends tree)
    (hnotified : readers = [] ∨ .notifyReaders s readers ∈ tasks) (htasks : w.Discreet task tasks) :
    w.Announces task (({ w with tree } : Workspace).push tasks) :=
  of_told htree.told (fun hr _ _ => hattends.listeners hr) hnotified htasks

theorem withTree_nil (htree : w.tree.Advances tree s []) (hattends : w.tree.Attends tree) :
    w.Announces task ({ w with tree } : Workspace) := by
  have hpush : w.Announces task (({ w with tree } : Workspace).push []) :=
    withTree htree hattends (.inl rfl) discreet_nil
  exact hpush

theorem spread {result : List ReaderId × ScopeTree} (htree : w.tree.Advances result.2 s result.1)
    (hattends : w.tree.Attends result.2) : w.Announces task (w.spread s result) :=
  withTree htree hattends (.inr List.mem_cons_self) (by simp [noticeTasks, Permits])

/-! ### The parts of a task -/

theorem write (h : w.tree.WellTied) {id : SlotId} (hid : w.tree.LentSlot s id) (v : SlotValue) :
    w.Announces task (w.write s id v) := by
  have htree := ScopeTree.advances_write h hid v
  have hattends := ScopeTree.attends_write (t := w.tree) s id v
  have hquiet := Coherent.readers_write_of_unchanged w.tree s id v
  unfold Workspace.write
  rcases hwrite : w.tree.write s id v with ⟨changed, readers, tree⟩
  rw [hwrite] at htree hattends hquiet
  simp only at htree hattends hquiet ⊢
  cases changed with
  | true =>
    rw [if_pos rfl]
    exact withTree htree hattends (.inr List.mem_cons_self) (by simp [Permits])
  | false =>
    rw [if_neg (by simp)]
    rw [hquiet rfl] at htree
    exact withTree_nil htree hattends

/-- Somebody begins or ceases to listen to a definition, or to a reader of the client's. -/
theorem relisten {u : ScopeId} (htree : w.tree.Advances tree u [])
    (hattends : ∀ {p : ScopeId} {r : ReaderId}, ¬w.Lends p r →
      tree.listeners p r = w.tree.listeners p r) :
    w.Announces task ({ w with tree } : Workspace) := by
  have hpush : w.Announces task (({ w with tree } : Workspace).push []) :=
    of_told htree.told (fun _ _ => hattends) (.inl rfl) discreet_nil
  exact hpush

theorem tell (h : w.tree.WellTied) (l : Listener) (v : SlotValue) :
    w.Announces task (w.tell v l) := by
  unfold Workspace.tell
  cases l with
  | importer s name =>
    simp only
    cases hs : w.tree.get? s with
    | none => exact refl w
    | some scope =>
      have hattends := ScopeTree.attends_setImported h s name v
      refine of_told (fun hr hnow => ?_) (fun hr _ _ => hattends.listeners hr)
        (.inr List.mem_cons_self) (by simp [noticeTasks, Permits])
      rw [ScopeTree.setImported_eq hs] at hnow ⊢
      exact ScopeTree.told_setBindings h hs
        (Bindings.observed_setImported (h.consistent hs) name v) hr hnow
  | input c name =>
    simp only
    split
    · exact refl w
    split
    · exact refl w
    split
    · exact refl w
    split
    · exact (refl w).putCell _ _
    · exact ((refl w).putCell _ _).push (by simp [Permits])
  | client k =>
    simp only
    split
    · exact refl w
    · refine Announces.push ?_ (by simp [Permits])
      exact (refl w).of_same rfl rfl rfl rfl

theorem dispatch (h : w.Announces task w') (c : CellId) (cell : Cell) (e : Expr) :
    w.Announces task (w'.dispatch c cell e) := by
  unfold Workspace.dispatch
  refine push (h.of_same rfl rfl rfl rfl) ?_
  simp [Permits]

theorem advance (hcell : w.cell? c = some cell) (generation : Nat) :
    w.Announces (.cell c (.advance generation)) (w.advance c cell generation) := by
  have hrefl : w.Announces (.cell c (.advance generation)) w := refl w
  unfold Workspace.advance
  split
  · exact hrefl
  split
  · exact hrefl
  split
  · exact hrefl.putCell _ _
  · exact hrefl.dispatch c cell _
  · exact (hrefl.putCell _ _).push (discreet_complete hcell (.own rfl) rfl _ _ (by simp [Permits]))

theorem receive (h : w.Announces (.operate op) w') {answer : Answer}
    (hanswers : w.answering? op = some (id, answer)) (hcells : w'.cells = w.cells) (c : CellId)
    (outcome : Outcome) : w.Announces (.operate op) (w'.receive id c outcome) := by
  unfold Workspace.receive
  split
  · exact h
  rename_i cell hcell
  rw [cell?, hcells] at hcell
  split
  · exact h
  rename_i hactive
  rw [not_not] at hactive
  simp only
  split
  · exact h.putCell _ _
  split
  · exact h.putCell _ _
  · refine (h.putCell _ _).push (discreet_complete hcell ?_ rfl _ _ (by simp [Permits]))
    exact .answered hcell hactive hanswers

theorem batch (h : w.Announces task w') (c : CellId) (cell : Cell) (always : Bool) :
    w.Announces task (w'.batch c cell always) := (h.putCell _ _).push (by simp [Permits])

theorem setScope (h : w.Announces task w') (c : CellId) (cell : Cell) (scope : Option ScopeId) :
    w.Announces task (w'.setScope c cell scope) := by
  unfold Workspace.setScope
  split
  · exact h
  · exact (h.putCell _ _).push (by simp [Permits])

theorem onHeldCell {f : Cell → Workspace} (hf : ∀ cell, w.Announces task (f cell)) :
    w.Announces task (w.onHeldCell c f) := by
  rw [onHeldCell_eq]
  cases w.heldCell? c with
  | none => exact refl w
  | some cell => exact hf cell

theorem answerCommand {answer : Answer} (hanswers : w.answering? op = some (id, answer)) :
    w.Announces (.operate op) (w.answerCommand id answer).2 := by
  have h : ∀ commands, w.Announces (.operate op) ({ w with commands } : Workspace) :=
    fun _ => (refl w).of_same rfl rfl rfl rfl
  unfold Workspace.answerCommand
  split
  · exact refl w
  · rename_i command commands _
    cases answer with
    | outcome | computed => exact (h commands).receive hanswers rfl _ _
    | unreadable e => exact h commands

/-- An operation that brings an answer. -/
theorem reply (hop : op.Replies) : w.Announces (.operate op) (w.operate op).2 := by
  rw [operate_of_replies hop]
  cases hanswers : w.answering? op with
  | none => exact refl w
  | some entry => exact answerCommand hanswers

theorem lends_of_getElem? {n : Nat} {handle : ReaderHandle} (hhandle : w.readers[n]? = some handle) :
    w.Lends handle.scope handle.reader :=
  ⟨handle, Array.mem_of_getElem? hhandle, rfl, rfl⟩

theorem letGo (h : w.tree.WellTied) (k : SubscriptionId) (ends : Bool) :
    w.Announces task (w.letGo k ends) := by
  have hrefl : w.Announces task w := refl w
  unfold Workspace.letGo
  split
  · exact hrefl
  split
  · simp only
    split
    · split
      · split
        · exact (relisten (ScopeTree.advances_ignoreDefinition h _ _ 0) fun _ =>
            ScopeTree.listeners_modify fun _ _ _ => rfl).of_same rfl rfl rfl rfl
        · exact hrefl.of_same rfl rfl rfl rfl
      · split
        · rename_i handle hhandle
          refine (relisten (ScopeTree.advances_ignoreReader h (by simp) _ _ 0) fun hother =>
            ScopeTree.listeners_ignoreReader ?_).of_same rfl rfl rfl rfl
          rintro ⟨rfl, rfl⟩
          exact hother (lends_of_getElem? hhandle)
        · exact hrefl.of_same rfl rfl rfl rfl
    · exact hrefl.of_same rfl rfl rfl rfl
  · exact hrefl

theorem subscribe (h : w.Coherent due) (handle : HandleRef)
    (reaction : Nat → SlotValue → List Op) : w.Announces task (w.subscribe handle reaction) := by
  have hrefl : w.Announces task w := refl w
  unfold Workspace.subscribe
  simp only
  split
  · split
    · exact (relisten (ScopeTree.advances_listenToDefinition h.tied (by simp) _ _ 0) fun _ =>
        ScopeTree.listeners_modify fun _ _ _ => rfl).of_same rfl rfl rfl rfl
    · exact hrefl.of_same rfl rfl rfl rfl
  · split
    · rename_i handle hhandle
      have hlent := h.reader (Array.mem_of_getElem? hhandle)
      refine (relisten (ScopeTree.advances_listenToReader h.tied (by simp) hlent 0) fun hother =>
        ScopeTree.listeners_listenToReader ?_).of_same rfl rfl rfl rfl
      rintro ⟨rfl, rfl⟩
      exact hother (lends_of_getElem? hhandle)
    · exact hrefl.of_same rfl rfl rfl rfl

theorem operate (h : w.Coherent due) : w.Announces (.operate op) (w.operate op).2 := by
  have hrefl : w.Announces (.operate op) w := refl w
  cases op with
  | child parent name start closed =>
    unfold Workspace.operate
    simp only
    split
    · have hchild : w.Announces (.operate (.child parent name start closed))
          ({ w with tree := (w.tree.child parent name start closed).2 } : Workspace) :=
        withTree_nil (ScopeTree.advances_child h.tied parent name start closed 0)
          (ScopeTree.attends_child parent name start closed)
      exact hchild.of_same rfl rfl rfl rfl
    · exact hrefl
  | dropScope s | dropCell c | ask c name | unreadable e => exact hrefl.of_same rfl rfl rfl rfl
  | addDefinition s name y =>
    unfold Workspace.operate
    simp only
    split
    · split
      · rename_i hadd
        exact withTree (ScopeTree.advances_addDefinition h.tied hadd).1
          (ScopeTree.attends_addDefinition h.tied hadd) (.inr List.mem_cons_self)
          (by simp [Permits])
      · exact hrefl
    · exact hrefl
  | addReader s name y =>
    unfold Workspace.operate
    simp only
    split
    · split
      · rename_i reader readers tree hadd
        have hadded : w.Announces (.operate (.addReader s name y)) ({ w with tree } : Workspace) :=
          withTree_nil (ScopeTree.advances_addReader h.tied hadd).1
            (ScopeTree.attends_addReader h.tied hadd)
        refine ⟨hadded.told, hadded.attends, ?_, hadded.backend, hadded.agenda⟩
        rintro p r ⟨handle, hmem, rfl, rfl⟩
        rcases Array.mem_push.mp hmem with hmem | rfl
        · exact .inl ⟨handle, hmem, rfl, rfl⟩
        · exact .inr (ScopeTree.not_given_addReader h.tied hadd)
      · exact hrefl
    · exact hrefl
  | set n value | clear n =>
    unfold Workspace.operate
    simp only
    split
    · rename_i hhandle
      exact write h.tied (h.definition (Array.mem_of_getElem? hhandle)) _
    · exact hrefl
  | move handle y | remove handle =>
    cases handle with
    | definition n | reader n =>
      unfold Workspace.operate
      simp only
      split
      · exact hrefl.push (by simp [Permits])
      · exact hrefl
  | subscribe handle reaction => exact subscribe h handle reaction
  | unsubscribe k | detach k => exact letGo h.tied k _
  | newCell position expression scope automatic =>
    refine setScope (putCell ?_ _ _) _ _ _
    exact hrefl.of_same rfl rfl rfl rfl
  | setScope c scope =>
    refine onHeldCell fun cell => ?_
    split
    · exact hrefl.setScope _ _ _
    · exact hrefl
  | setExpression c expression =>
    exact onHeldCell fun cell => (hrefl.push (by simp [Permits])).batch _ _ _
  | setPosition c position =>
    refine onHeldCell fun cell => ?_
    split
    · exact hrefl
    · exact (hrefl.push (by simp [Permits])).batch _ _ _
  | setAutomatic c automatic =>
    refine onHeldCell fun cell => (hrefl.putCell _ _).push ?_
    split <;> simp [Permits]
  | recalculate c => exact onHeldCell fun cell => hrefl.push (by simp [Permits])
  | recalculateStale c =>
    refine onHeldCell fun cell => ?_
    split
    · exact hrefl.push (by simp [Permits])
    · exact hrefl
  | answer | reply => exact reply trivial
  | next =>
    unfold Workspace.operate
    simp only
    split
    · exact hrefl
    · exact hrefl.of_same rfl rfl rfl rfl

theorem performCell (h : w.tree.WellTied) (hcell : w.cell? c = some cell) (driven : CellTask) :
    w.Announces (.cell c driven) (w.performCell c cell driven) := by
  have hrefl : w.Announces (.cell c driven) w := refl w
  cases driven with
  | refresh => exact hrefl.push (by simp [Permits])
  | invalidate =>
    refine (hrefl.putCell _ _).push (discreet_append.mpr ⟨discreet_cancelTasks _, ?_⟩)
    refine discreet_map.mpr fun o ho => ?_
    obtain ⟨name, hname⟩ := (mem_values_iff_lookup _ _).mp ho
    exact ⟨c, cell, name, hcell, hname, .own rfl, fun _ => rfl⟩
  | reconsider =>
    unfold Workspace.performCell
    simp only
    split
    · exact hrefl.push (by simp [Permits])
    · exact hrefl.putCell _ _
  | evaluate => exact (hrefl.putCell _ _).push (by simp [Permits])
  | advance generation => exact advance hcell generation
  | enter scope => exact hrefl.batch _ _ _
  | synchronize =>
    unfold Workspace.performCell
    simp only
    split
    · exact hrefl
    · exact (hrefl.putCell _ _).push (by simp [Permits])
  | addOutput s name y =>
    unfold Workspace.performCell
    simp only
    split
    · exact hrefl
    split
    · exact hrefl
    · rename_i hadd
      exact withTree (ScopeTree.advances_addDefinition h hadd).1
        (ScopeTree.attends_addDefinition h hadd) (.inr List.mem_cons_self)
        (by simp [Permits])
  | keepOutput s name slot => exact hrefl.putCell _ _
  | addInput s name y =>
    unfold Workspace.performCell
    simp only
    split
    · exact hrefl
    split
    · exact hrefl
    · rename_i reader readers tree hadd
      obtain ⟨htree, hreader⟩ := ScopeTree.advances_addReader h hadd
      have hlisten := ScopeTree.advances_listenToReader htree.tied
        (by simp : ∀ c' n, Listener.input c name ≠ .importer c' n) hreader s
      have hattends := ScopeTree.attends_addReader h hadd
      refine putCell (withTree_nil (htree.trans hlisten) ⟨fun {p r} hr => ?_⟩) _ _
      rw [ScopeTree.listeners_listenToReader, hattends.listeners hr]
      rintro ⟨rfl, rfl⟩
      exact ScopeTree.not_given_addReader h hadd hr.given
  | endBatch outer always =>
    refine (hrefl.putCell _ _).push ?_
    split <;> simp [Permits]

end Announces

/-- Every task but a notice announces what it changes. -/
theorem perform_announces (h : w.Coherent due)
    (hsafe : (∀ s name v, task ≠ .tell (.importer s name) v) → task.Safe w.tree)
    (hsilent : ∀ {s : ScopeId} {id : SlotId}, task = .notifyDefinition s id →
      ∀ l ∈ w.tree.definitionListeners s id, ∃ k, l = .client k)
    (hnotice : ∀ s readers, task ≠ .notifyReaders s readers) :
    w.Announces task (w.perform task) := by
  have hrefl : w.Announces task w := .refl w
  cases task with
  | operate op => exact .operate h
  | notifyReaders s readers => exact absurd rfl (hnotice s readers)
  | notifyDefinition s slot =>
    unfold perform
    simp only
    split
    · rename_i value listeners hnotified
      refine hrefl.push (discreet_map.mpr fun l hl => ?_)
      obtain ⟨k, rfl⟩ := hsilent rfl l (ScopeTree.eq_of_definitionNotice? hnotified ▸ hl)
      trivial
    · exact hrefl
  | tell l v => exact .tell h.tied l v
  | write s slot v => exact .write h.tied (hsafe (by simp)) v
  | moveDefinition s slot y =>
    exact .spread (ScopeTree.advances_moveDefinition h.tied s slot y)
      (ScopeTree.attends_moveDefinition h.tied s slot y)
  | moveReader s x y =>
    exact .spread (ScopeTree.advances_moveReader h.tied (hsafe (by simp)) y)
      (ScopeTree.attends_moveReader h.tied s x y)
  | removeDefinition s slot =>
    exact .spread (ScopeTree.advances_removeDefinition h.tied s slot)
      (ScopeTree.attends_removeDefinition h.tied s slot)
  | removeReader s x =>
    have hx : w.tree.Lent s x := hsafe (by simp)
    refine .of_told (ScopeTree.advances_removeReader h.tied hx).told (fun hr hne _ => ?_)
      (.inr List.mem_cons_self) (by simp [noticeTasks, Permits])
    exact ScopeTree.listeners_removeReader h.tied hx hr fun heq => hne (by rw [heq.1, heq.2])
  | keepDefinition => exact hrefl.of_same rfl rfl rfl rfl
  | cancel id =>
    unfold perform
    simp only
    refine Announces.push ?_ (by simp [Permits])
    split <;> exact hrefl.of_same rfl rfl rfl rfl
  | cell c driven =>
    cases hcell : w.cell? c with
    | none =>
      rw [perform_cell_of_none hcell]
      exact hrefl
    | some cell =>
      rw [perform_cell hcell]
      exact .performCell h.tied hcell driven
  | releaseScope | releaseCell => exact hrefl

end Workspace

end MathCanvas
