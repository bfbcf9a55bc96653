import MathCanvas.Proofs.Workspace.Proceeds

/-!
# Tasks that set off lower ones

If whoever is told has a lower grade than whoever tells (`Workspace.Graded`), a task by which values
are passed on sets off lower ones (`Workspace.spawns_perform`). Those of a refresh of a cell are set
off by tasks that are no higher than what tells the cell (`Workspace.Yields`).
-/

namespace MathCanvas

namespace Workspace

variable {w w' : Workspace} {g : Grading} {c : CellId} {cell : Cell} {name : String}
  {s : ScopeId} {x : Nat} {r : ReaderId} {l : Listener} {task t : Task} {tasks : List Task}
  {k k' : Height} {readers : List ReaderId}

/-- Whoever is told has a lower grade than whoever tells. -/
structure Graded (g : Grading) (w : Workspace) : Prop where
  output : ∀ {c : CellId} {cell : Cell} {name : String} {s : ScopeId} {x : SlotId} {r : ReaderId}
    {l : Listener}, w.cell? c = some cell → cell.suspended = false →
    cell.Has name s x .definition → w.tree.binding? s r = some x → l ∈ w.tree.listeners s r →
    w.Hears l → g.of l < g.cell c
  importer : ∀ {s : ScopeId} {scope : Scope} {name : String} {x : SlotId} {r : ReaderId}
    {l : Listener}, w.tree.get? s = some scope → scope.bindings.importer? name = some x →
    w.tree.binding? s r = some x → l ∈ w.tree.listeners s r → w.Hears l → g.of l < g.scope s

/-- A task that is set off by another one is lower and passes on values too. If it belongs to a
refresh of a cell, the other one is no higher than what tells that cell. -/
structure Yields (g : Grading) (w : Workspace) (task : Task) (k : Height) (w' : Workspace)
    (t : Task) : Prop where
  under : ∃ k' < k, w'.Under g t k'
  passes : t.passes = true
  own : ∀ c, t.refreshes c = true → w.Under g task (height 0 (g.cell c) 7 0)

theorem Yields.of_under (hk : k' < k) (ht : w'.Under g t k') (hpasses : t.passes = true)
    (hown : ∀ c, t.refreshes c = false) : Yields g w task k w' t :=
  ⟨⟨k', hk, ht⟩, hpasses, fun c hc => by rw [hown c] at hc; cases hc⟩

theorem Yields.of_same {w'' : Workspace} (h : Yields g w task k w' t) (htree : w''.tree = w'.tree)
    (hcells : w''.cells = w'.cells) (hcommands : w''.commands = w'.commands) :
    Yields g w task k w'' t := by
  obtain ⟨k', hk, ht⟩ := h.under
  exact ⟨⟨k', hk, ht.of_same htree hcells hcommands⟩, h.passes, h.own⟩

/-- A task of a refresh of a cell is lower than what tells the cell. -/
theorem Under.own {driven : CellTask} (h : w.Under g (.cell c driven) k)
    (hdriven : driven.refreshes = true) :
    w.Under g (.cell c driven) (height 0 (g.cell c) 7 0) := by
  have hdrives : ∀ {rank}, rank < 7 → w.Drives g c rank k →
      w.Drives g c rank (height 0 (g.cell c) 7 0) := fun hrank h cell hcell =>
    ⟨(h cell hcell).1, (height_lt_of_rank hrank).le⟩
  cases driven with
  | refresh => exact hdrives (by omega) h
  | reconsider => exact hdrives (by omega) h
  | evaluate => exact hdrives (by omega) h
  | invalidate => exact hdrives (by omega) h
  | advance generation =>
    intro cell hcell
    obtain ⟨hawake, hle, -⟩ := h cell hcell
    exact ⟨hawake, hle, fun _ _ _ => (height_lt_of_rank (by omega)).le⟩
  | _ => cases hdriven

/-- What a cell writes is lower than its own tasks. -/
theorem yields_write {new : Cell} {o : CellOutput} {v : SlotValue}
    (hawake : new.suspended = false) (ho : new.outputs[name]? = some o) {rank count : Nat}
    (hrank : 1 ≤ rank) (hk : height 0 (g.cell c) rank count < k) :
    Yields g w task k (w'.putCell c new) (.write o.scope o.slot v) := by
  refine .of_under hk ⟨c, new, name, cell?_putCell w' c new, hawake, ho, ?_⟩ rfl fun _ => rfl
  exact height_le_iff.mpr (.inr ⟨rfl, .inr ⟨rfl, by omega⟩⟩)

/-- A cell goes on to the next stage of its run, and writes what it has got. -/
theorem yields_complete {plan : Plan} {value : Expr} {count : Nat}
    (hawake : cell.suspended = false) (hstages : plan.stages ≠ [])
    (hcount : 2 * plan.stages.length - 1 ≤ count) (hk : height 0 (g.cell c) 2 count ≤ k)
    (hown : w.Under g task (height 0 (g.cell c) 7 0)) :
    ∀ t ∈ (cell.complete plan value).1.toList.map
        (fun o => Task.write o.scope o.slot (.defined value)) ++
      [.cell c (.advance cell.generation), .releaseCell c],
      Yields g w task k (w'.putCell c (cell.complete plan value).2) t := by
  have hlength := Plan.length_complete hstages cell.expression value
  have hlt : height 0 (g.cell c) 2
      (2 * (plan.complete cell.expression value).2.2.stages.length) < k :=
    lt_of_lt_of_le (height_lt_of_count (by omega)) hk
  have hsame : (cell.complete plan value).2.suspended = false := hawake
  intro t ht
  simp only [List.mem_append, List.mem_map, Option.mem_toList, List.mem_cons, List.not_mem_nil,
    or_false] at ht
  rcases ht with ⟨o, ho, rfl⟩ | rfl | rfl
  · obtain ⟨name, -, ho⟩ := Option.bind_eq_some_iff.mp ho
    have houtput : (cell.complete plan value).2.outputs[name]? = some o := ho
    exact yields_write hsame houtput (by omega) hlt
  · refine ⟨⟨_, hlt, fun cell' hcell' => ?_⟩, rfl, fun c' hc => ?_⟩
    · cases (cell?_putCell w' c _).symm.trans hcell'
      refine ⟨hawake, Nat.le_refl _, fun _ plan' hplan => ?_⟩
      cases hplan
      exact le_refl _
    · obtain rfl := (Task.refreshes_cell.mp hc).1
      exact hown
  · exact .of_under hlt trivial rfl fun _ => rfl

/-- All that a task puts on the agenda is lower than the task. -/
def Spawns (g : Grading) (w : Workspace) (task : Task) (k : Height) (w' : Workspace) : Prop :=
  ∃ tasks, w'.agenda = tasks ++ w.agenda ∧ ∀ t ∈ tasks, Yields g w task k w' t

/-- The tasks are those in front of the ones that waited. -/
theorem Spawns.yields (h : Spawns g w task k w') (hagenda : w'.agenda = tasks ++ w.agenda) :
    ∀ t ∈ tasks, Yields g w task k w' t := by
  obtain ⟨tasks', hagenda', hyields⟩ := h
  rwa [List.append_cancel_right (hagenda.symm.trans hagenda')]

theorem Spawns.of_nothing (hagenda : w'.agenda = w.agenda) : Spawns g w task k w' :=
  ⟨[], hagenda, by simp⟩

theorem Spawns.push (hagenda : w'.agenda = w.agenda)
    (htasks : ∀ t ∈ tasks, Yields g w task k w' t) :
    Spawns g w task k (w'.push tasks) :=
  ⟨tasks, congrArg _ hagenda, fun t ht => (htasks t ht).of_same rfl rfl rfl⟩

theorem spawns_dispatch (himmediate : w.backend.Immediate) {plan : Plan} {e : Expr}
    (hawake : cell.suspended = false) (hplan : cell.plan = some plan) (hstages : plan.stages ≠ [])
    (hk : height 0 (g.cell c) 2 (2 * plan.stages.length) ≤ k) :
    Spawns g w task k (w.dispatch c cell e) := by
  obtain ⟨answer, -, hanswer⟩ := himmediate.onDispatch w.nextCommand ⟨c, w.definedInputs cell, e⟩
  have hlength := List.length_pos_iff.mpr hstages
  unfold dispatch
  refine .push rfl fun t ht => ?_
  have ht : t ∈ (w.backend.onDispatch w.nextCommand ⟨c, w.definedInputs cell, e⟩).map .operate := ht
  rw [hanswer] at ht
  obtain rfl := List.mem_singleton.mp ht
  refine .of_under (lt_of_lt_of_le (height_lt_of_count (Nat.sub_lt (by omega) Nat.one_pos)) hk)
    (fun command hcommand found hfound _ => ?_) rfl fun _ => rfl
  -- the command that is answered is the one that has just been sent
  have hsent := (DispatchQueue.find?_dispatch w.commands w.nextCommand w.nextCommand
    ⟨c, w.definedInputs cell, e⟩).symm.trans hcommand
  rw [if_pos rfl] at hsent
  cases hsent
  cases (cell?_putCell w c _).symm.trans hfound
  refine ⟨hawake, fun plan' hplan' => ?_⟩
  cases hplan.symm.trans hplan'
  exact ⟨hstages, le_refl _⟩

/-- A cell begins a run, and may have all of its stages to go. -/
theorem spawns_evaluate (hawake : cell.suspended = false)
    (hk : height 0 (g.cell c) 3 0 ≤ k)
    (hown : w.Under g (.cell c .evaluate) (height 0 (g.cell c) 7 0)) :
    Spawns g w (.cell c .evaluate) k (w.performCell c cell .evaluate) := by
  obtain ⟨-, -, hrun⟩ := cell.begin_run fun i => (w.inputValue i).isUnset
  have hbatch := (cell.begin_batch fun i => (w.inputValue i).isUnset).1.trans hawake
  unfold performCell
  simp only
  generalize cell.begin (fun i => (w.inputValue i).isUnset) = begun at hrun hbatch
  obtain ⟨generation, new⟩ := begun
  refine .push rfl fun t ht => ?_
  obtain ⟨generation', hgeneration, rfl⟩ := List.mem_map.mp ht
  obtain rfl := Option.mem_toList.mp hgeneration
  obtain rfl : generation' = new.generation :=
    Option.some.inj (hrun.resolve_left (by rintro ⟨⟩)).1
  have hunder : ∀ {k'}, (∀ plan, new.plan = some plan →
      height 0 (g.cell c) 2 (2 * plan.stages.length) ≤ k') →
      (w.putCell c new).Under g (.cell c (.advance new.generation)) k' := by
    intro k' hlow found hfound
    cases (cell?_putCell w c _).symm.trans hfound
    exact ⟨hbatch, le_refl _, fun _ => hlow⟩
  refine ⟨?_, rfl, fun c' hc => (Task.refreshes_cell.mp hc).1 ▸ hown⟩
  cases hplan : new.plan with
  | none =>
    refine ⟨height 0 (g.cell c) 2 0, lt_of_lt_of_le (height_lt_of_rank (by omega)) hk, hunder ?_⟩
    rw [hplan]
    rintro plan ⟨⟩
  | some plan =>
    refine ⟨height 0 (g.cell c) 2 (2 * plan.stages.length),
      lt_of_lt_of_le (height_lt_of_rank (by omega)) hk, hunder ?_⟩
    rw [hplan]
    rintro plan' ⟨⟩
    exact le_refl _

theorem spawns_performCell (himmediate : w.backend.Immediate) (hcell : w.cell? c = some cell)
    {driven : CellTask} (h : w.Under g (.cell c driven) k)
    (hpasses : (Task.cell c driven).passes = true) :
    Spawns g w (.cell c driven) k (w.performCell c cell driven) := by
  have hown : ∀ {c'}, driven.refreshes = true → c = c' →
      w.Under g (.cell c driven) (height 0 (g.cell c') 7 0) := by
    rintro c' hdriven rfl
    exact h.own hdriven
  cases driven with
  | refresh =>
    have hk : height 0 (g.cell c) 5 0 < k :=
      lt_of_lt_of_le (height_lt_of_rank (by omega)) (h cell hcell).2
    have hdrives : ∀ rank ≤ 5, w.Drives g c rank (height 0 (g.cell c) 5 0) :=
      fun rank hrank found hfound => ⟨(h found hfound).1,
        height_le_iff.mpr (.inr ⟨rfl, .inr ⟨rfl, by omega⟩⟩)⟩
    refine .push rfl fun t ht => ?_
    simp only [List.mem_cons, List.not_mem_nil, or_false] at ht
    have hown : ∀ {driven' : CellTask} {c'}, (Task.cell c driven').refreshes c' = true →
        w.Under g (.cell c .refresh) (height 0 (g.cell c') 7 0) := fun hc =>
      hown rfl (Task.refreshes_cell.mp hc).1
    rcases ht with rfl | rfl
    · exact ⟨⟨_, hk, hdrives 4 (by omega)⟩, rfl, fun c' hc => hown hc⟩
    · exact ⟨⟨_, hk, hdrives 5 (by omega)⟩, rfl, fun c' hc => hown hc⟩
  | invalidate =>
    obtain ⟨hawake, hle⟩ := h cell hcell
    have hk : height 0 (g.cell c) 1 0 < k := lt_of_lt_of_le (height_lt_of_rank (by omega)) hle
    refine .push rfl fun t ht => ?_
    rcases List.mem_append.mp ht with ht | ht
    · obtain ⟨id, -, rfl⟩ := List.mem_map.mp ht
      exact .of_under hk trivial rfl fun _ => rfl
    · obtain ⟨o, ho, rfl⟩ := List.mem_map.mp ht
      obtain ⟨name, ho⟩ := (mem_values_iff_lookup _ _).mp ho
      have hsame : cell.invalidated.outputs[name]? = some o := ho
      exact yields_write hawake hsame (le_refl 1) hk
  | reconsider =>
    unfold performCell
    simp only
    split
    · refine .push rfl fun t ht => ?_
      obtain rfl := List.mem_singleton.mp ht
      have hdrives : w.Drives g c 3 (height 0 (g.cell c) 3 0) :=
        fun found hfound => ⟨(h found hfound).1, le_refl _⟩
      refine ⟨⟨_, ?_, hdrives⟩, rfl, fun c' hc => hown rfl (Task.refreshes_cell.mp hc).1⟩
      exact lt_of_lt_of_le (height_lt_of_rank (by omega)) (h cell hcell).2
    · exact .of_nothing rfl
  | evaluate =>
    obtain ⟨hawake, hle⟩ := h cell hcell
    exact spawns_evaluate hawake hle (h.own rfl)
  | advance generation =>
    obtain ⟨hawake, -, hlow⟩ := h cell hcell
    unfold performCell advance
    simp only
    split
    · exact .of_nothing rfl
    rename_i hgeneration
    rw [not_not] at hgeneration
    split
    · exact .of_nothing rfl
    rename_i plan hplan
    have hk := hlow hgeneration.symm plan hplan
    split
    · exact .of_nothing rfl
    · rename_i e hnext
      exact spawns_dispatch himmediate hawake hplan
        (Plan.stages_ne_nil (by rw [hnext]; rintro ⟨⟩)) hk
    · rename_i target value hnext
      refine .push rfl fun t ht => ?_
      refine yields_complete hawake (Plan.stages_ne_nil (by rw [hnext]; rintro ⟨⟩)) (by omega) hk
        (hown rfl rfl) t ?_
      subst hgeneration
      rcases List.mem_append.mp ht with ht | ht
      · exact List.mem_append_left _ ht
      · exact List.mem_append_right _ (List.mem_singleton.mp ht ▸ List.mem_cons_self)
  | _ => cases hpasses

section Yields

variable (hgraded : w.Graded g) (hconsistent : w.tree.Consistent)

theorem yields_notify (h : w.Under g (.notifyReaders s (r :: readers)) k) {v : SlotValue} :
    ∀ t ∈ (w.tree.listeners s r).map (Task.tell · v) ++ [.notifyReaders s readers],
      Yields g w (.notifyReaders s (r :: readers)) k w t := by
  obtain ⟨a, hlisteners, hle⟩ := h
  have hk : height 0 a 0 readers.length < k :=
    lt_of_lt_of_le (height_lt_of_count (by simp)) hle
  intro t ht
  rcases List.mem_append.mp ht with ht | ht
  · obtain ⟨l, hl, rfl⟩ := List.mem_map.mp ht
    exact .of_under hk (fun hhears =>
      (height_lt_of_grade (hlisteners r List.mem_cons_self l hl hhears)).le) rfl fun _ => rfl
  · obtain rfl := List.mem_singleton.mp ht
    exact .of_under hk ⟨a, fun r' hr' => hlisteners r' (List.mem_cons_of_mem _ hr'), le_refl _⟩
      (Task.passes_notifyReaders ..) fun _ => rfl

include hgraded hconsistent

theorem yields_import (htree : w.tree.get? s ≠ none) {v : SlotValue}
    (h : w.Under g (.tell (.importer s name) v) k) :
    ∀ t ∈ noticeTasks s (w.tree.setImported s name v).1,
      Yields g w (.tell (.importer s name) v) k
        ({ w with tree := (w.tree.setImported s name v).2 } : Workspace) t := by
  obtain ⟨scope, hs⟩ := Option.ne_none_iff_exists'.mp htree
  have hk : height 0 (g.scope s) 0 (w.tree.setImported s name v).1.length < k :=
    lt_of_lt_of_le (height_lt_of_rank (by omega)) (h trivial)
  intro t ht
  simp only [noticeTasks, List.mem_cons, List.not_mem_nil, or_false] at ht
  rcases ht with rfl | rfl
  · refine .of_under hk ⟨g.scope s, fun r hr l hl hhears => ?_, le_refl _⟩
      (Task.passes_notifyReaders ..) fun _ => rfl
    obtain ⟨x, himporter, hbinding⟩ :=
      ScopeTree.binding?_of_mem_setImported hconsistent hs hr
    exact hgraded.importer hs himporter hbinding
      (w.tree.hushes_setImported s name v s r l hl) hhears
  · exact .of_under hk trivial rfl fun _ => rfl

theorem yields_told {v : SlotValue} (h : w.Under g (.write s x v) k) :
    ∀ t ∈ ([.notifyReaders s (w.tree.write s x v).2.1, .notifyDefinition s x, .releaseScope s] :
        List Task),
      Yields g w (.write s x v) k ({ w with tree := (w.tree.write s x v).2.2 } : Workspace) t := by
  obtain ⟨c, cell, name, hcell, hawake, has, hle⟩ := h
  have hk : height 0 (g.cell c) 0 ((w.tree.write s x v).2.1.length + 1) < k :=
    lt_of_lt_of_le (height_lt_of_rank (by omega)) hle
  intro t ht
  simp only [List.mem_cons, List.not_mem_nil, or_false] at ht
  rcases ht with rfl | rfl | rfl
  · refine .of_under hk ⟨g.cell c, fun r hr l hl hhears => ?_, (height_lt_of_count (by omega)).le⟩
      (Task.passes_notifyReaders ..) fun _ => rfl
    exact hgraded.output hcell hawake has (ScopeTree.binding?_of_mem_write hconsistent hr)
      (w.tree.hushes_write s x v s r l hl) hhears
  · refine .of_under hk (height_lt_iff.mpr (.inr ⟨rfl, ?_⟩)) rfl fun _ => rfl
    exact (grade_zero_le (g.cell c)).lt_or_eq.imp_right fun heq => ⟨heq, by omega⟩
  · exact .of_under hk trivial rfl fun _ => rfl

end Yields

/-- A cell takes the outcome of its command. -/
theorem spawns_receive {id : CommandId} {command : Command} {answer : Answer}
    {commands : DispatchQueue CommandId Command} (hcommand : w.commands.find? id = some command)
    (h : w.Under g (.operate (.answer (some id) answer)) k) (outcome : Outcome) :
    Spawns g w (.operate (.answer (some id) answer)) k
      (({ w with commands } : Workspace).receive id command.cell outcome) := by
  unfold receive
  cases hcell : w.cell? command.cell with
  | none =>
    have hsame : ({ w with commands } : Workspace).cell? command.cell = none := hcell
    rw [hsame]
    exact .of_nothing rfl
  | some cell =>
    have hsame : ({ w with commands } : Workspace).cell? command.cell = some cell := hcell
    rw [hsame]
    simp only
    split
    · exact .of_nothing rfl
    rename_i hactive
    rw [not_not] at hactive
    obtain ⟨hawake, hlow⟩ := h command hcommand cell hcell hactive
    cases outcome with
    | error e => exact .of_nothing rfl
    | ok value =>
      cases hplan : cell.plan with
      | none =>
        simp only
        exact .of_nothing rfl
      | some plan =>
        obtain ⟨hstages, hk⟩ := hlow plan hplan
        simp only
        let idle : Cell := { cell with active := none }
        have hidle : idle.suspended = false := hawake
        refine .push rfl (yields_complete hidle hstages (le_refl _) hk ?_)
        intro command' hcommand' cell' hcell' _
        cases hcommand.symm.trans hcommand'
        cases hcell.symm.trans hcell'
        refine ⟨hawake, fun plan' hplan' => ?_⟩
        cases hplan.symm.trans hplan'
        exact ⟨hstages, (height_lt_of_rank (by omega)).le⟩

theorem spawns_answer {id : CommandId} {answer : Answer}
    (h : w.Under g (.operate (.answer (some id) answer)) k) :
    Spawns g w (.operate (.answer (some id) answer)) k
      (w.perform (.operate (.answer (some id) answer))) := by
  unfold perform operate
  simp only
  split
  · rename_i id' _ hid
    obtain rfl : id = id' := Option.some.inj hid
    unfold answerCommand
    cases hcommand : w.commands.find? id with
    | none =>
      simp only [DispatchQueue.take, hcommand]
      exact .of_nothing rfl
    | some command =>
      simp only [DispatchQueue.take, hcommand]
      cases answer with
      | outcome outcome => exact spawns_receive hcommand h outcome
      | computed => exact spawns_receive hcommand h _
      | unreadable e => exact .of_nothing rfl
  · exact .of_nothing rfl

/-- Telling somebody sets off lower tasks. -/
theorem spawns_tell (hgraded : w.Graded g) (hconsistent : w.tree.Consistent)
    (hsubscriptions : w.subscriptions = #[]) {v : SlotValue} (h : w.Under g (.tell l v) k) :
    Spawns g w (.tell l v) k (w.tell v l) := by
  unfold tell
  cases l with
  | importer s name =>
    simp only
    split
    · rename_i scope hs
      exact .push rfl (yields_import hgraded hconsistent (by rw [hs]; rintro ⟨⟩) h)
    · exact .of_nothing rfl
  | client n =>
    rw [hsubscriptions]
    exact .of_nothing rfl
  | input c name =>
    simp only
    cases hcell : w.cell? c with
    | none => exact .of_nothing rfl
    | some cell =>
      cases hi : cell.inputs[name]? with
      | none =>
        simp only [hi]
        exact .of_nothing rfl
      | some i =>
        simp only [hi]
        split
        · exact .of_nothing rfl
        split
        · exact .of_nothing rfl
        rename_i hawake
        rw [Bool.not_eq_true] at hawake
        -- the cell listens, and a refresh of it is lower than what it is told
        have hhears : w.Hears (.input c name) := ⟨cell, hcell, hawake⟩
        have hk : height 0 (g.cell c) 6 0 < k :=
          lt_of_lt_of_le (height_lt_of_rank (by omega)) (h hhears)
        refine .push rfl fun t ht => ?_
        simp only [List.mem_cons, List.not_mem_nil, or_false] at ht
        rcases ht with rfl | rfl
        · refine ⟨⟨_, hk, fun found hfound => ?_⟩, rfl, fun c' hc => ?_⟩
          · cases (cell?_putCell w c _).symm.trans hfound
            exact ⟨hawake, le_refl _⟩
          · obtain rfl := (Task.refreshes_cell.mp hc).1
            exact fun _ => le_refl _
        · exact .of_under hk trivial rfl fun _ => rfl

/-- What only gives something up sets off nothing. -/
theorem agenda_of_release (himmediate : w.backend.Immediate) (hphase : task.phase = .release) :
    (w.perform task).agenda = w.agenda := by
  cases task with
  | cell c driven => cases driven <;> cases hphase
  | notifyReaders s readers =>
    cases readers with
    | nil => rfl
    | cons => cases hphase
  | cancel id =>
    have hnothing : (w.backend.onCancel id).map Task.operate ++ w.agenda = w.agenda := by
      rw [himmediate.onCancel]
      rfl
    unfold perform
    simp only
    split <;> exact hnothing
  | releaseScope | releaseCell => rfl
  | _ => cases hphase

/-- What passes on values sets off lower tasks that pass on values. -/
theorem spawns_perform (hgraded : task.phase = .talk → w.Graded g) (hconsistent : w.tree.Consistent)
    (hsubscriptions : w.subscriptions = #[]) (himmediate : w.backend.Immediate)
    (hsilent : ∀ {s : ScopeId} {x : SlotId} {l : Listener}, l ∈ w.tree.definitionListeners s x →
      ∃ n, l = .client n)
    (hpasses : task.passes = true) (h : w.Under g task k) :
    Spawns g w task k (w.perform task) := by
  cases task with
  | operate op =>
    cases op with
    | answer id answer =>
      cases id with
      | none => exact h.elim
      | some id => exact spawns_answer h
    | _ => exact h.elim
  | notifyReaders s readers =>
    cases readers with
    | nil => exact .of_nothing rfl
    | cons r rest =>
      unfold perform
      cases hnotice : w.tree.readerNotice? s r with
      | none =>
        simp only [hnotice]
        refine .push rfl fun t ht => yields_notify h (v := .unset) t ?_
        exact List.mem_append_right _ ht
      | some notice =>
        obtain ⟨v, listeners⟩ := notice
        simp only [hnotice]
        refine .push rfl fun t ht => yields_notify h (v := v) t ?_
        rwa [(ScopeTree.eq_of_readerNotice? hnotice).2]
  | notifyDefinition s x =>
    unfold perform
    cases hnotice : w.tree.definitionNotice? s x with
    | none =>
      simp only [hnotice]
      exact .of_nothing rfl
    | some notice =>
      obtain ⟨v, listeners⟩ := notice
      simp only [hnotice]
      refine .push rfl fun t ht => ?_
      obtain ⟨l, hl, rfl⟩ := List.mem_map.mp ht
      obtain ⟨n, rfl⟩ := hsilent (ScopeTree.eq_of_definitionNotice? hnotice ▸ hl)
      exact .of_under h (fun hhears => hhears.elim) rfl fun _ => rfl
  | tell l v => exact spawns_tell (hgraded rfl) hconsistent hsubscriptions h
  | write s x v =>
    unfold perform write
    simp only
    split
    · exact .push rfl (yields_told (hgraded rfl) hconsistent h)
    · exact .of_nothing rfl
  | cancel | releaseScope | releaseCell => exact .of_nothing (agenda_of_release himmediate rfl)
  | cell c driven =>
    cases hcell : w.cell? c with
    | none =>
      rw [perform_cell_of_none hcell]
      exact .of_nothing rfl
    | some cell =>
      rw [perform_cell hcell]
      exact spawns_performCell himmediate hcell h hpasses
  | _ => cases hpasses

end Workspace

end MathCanvas
