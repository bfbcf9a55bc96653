import MathCanvas.Proofs.Document.Covering
import MathCanvas.Proofs.Scope.Tellings

/-!
# Tasks pay for what they set off

The price of a task is enough for the commands that it dispatches and for the prices of all that it
puts on the agenda (`Workspace.Tariff.Pays`). What it puts in front of that only takes values away,
which makes nobody dispatch anything, and needs no price.
-/

namespace MathCanvas

/-- A run begins with the plan of the expression. -/
theorem Cell.ofExpr_of_mem_begin {cell : Cell} {unset : CellInput → Bool} {plan : Plan}
    (hplan : plan ∈ (cell.begin unset).2.plan) : Plan.ofExpr cell.expression = .ok (some plan) := by
  unfold Cell.begin at hplan
  cases hscope : cell.scope with
  | none => simp [hscope] at hplan
  | some s =>
    rw [hscope] at hplan
    simp only at hplan
    cases hof : Plan.ofExpr cell.expression with
    | error e => simp [hof] at hplan
    | ok found =>
      cases found with
      | none => simp [hof] at hplan
      | some found =>
        rw [hof] at hplan
        simp only at hplan
        split at hplan
        · cases hplan
        · cases hplan
          rfl

namespace Workspace

variable {v w w' : Workspace} {origin d c : CellId} {cell cell' : Cell} {s q : ScopeId}
  {name : String} {x : SlotId} {r : ReaderId} {task : Task} {tasks : List Task} {k : Nat}
  {prices : List Nat} {readers : List ReaderId} {l : Listener} {value : SlotValue}

theorem Resembles.planOf?_eq (h : v.Resembles w) (hcell : w.cell? c = some cell) {plan : Plan}
    (hplan : Plan.ofExpr cell.expression = .ok (some plan)) : v.planOf? c = some plan := by
  obtain ⟨first, hfirst, -, -, hblanked⟩ := h.cells hcell
  rw [planOf?, hfirst, Option.bind_some, Expr.plan?, ← Plan.ofExpr_congr hblanked, hplan]

/-- Giving a command up dispatches none. -/
theorem dispatches_cancel (w : Workspace) (id : CommandId) (d : CellId) :
    (w.perform (.cancel id)).dispatches d = w.dispatches d := by
  have hrecord : (w.record (.cancelled id)).dispatches d = w.dispatches d := by
    show List.countP _ (w.history ++ [_]) = _
    rw [List.countP_append, List.countP_singleton]
    rfl
  unfold perform
  simp only
  split <;> exact hrecord

namespace Tariff

/-- The tariff covers all those who are told of something. -/
structure Priced (t : v.Tariff origin d) (s : ScopeId) (w : Workspace) : Prop where
  /-- A definition belongs to the scope, and stands where its cell does. -/
  place : ∀ {c : CellId} {cell : Cell} {name : String} {q : ScopeId} {x : SlotId},
    w.cell? c = some cell → cell.suspended = false → cell.Has name q x .definition →
    cell.scope = some s ∧ q = s ∧ (x, cell.position) ∈ w.tree.sequence s name
  /-- The name of a definition pays for all that hear of it. -/
  observers : ∀ {c : CellId} {cell : Cell} {name : String} {x : SlotId} {readers : List ReaderId},
    w.cell? c = some cell → cell.scope = some s → (x, cell.position) ∈ w.tree.sequence s name →
    cell.suspended = true ∨ cell.outputs[name]? ≠ none → readers.Nodup →
    (∀ r ∈ readers, w.tree.binding? s r = some x) →
    ((w.hearers s readers).map t.cell).sum ≤ t.name c name
  /-- Nobody hears of anything in another scope. -/
  elsewhere : ∀ {q : ScopeId}, q ≠ s → ∀ readers, w.hearers q readers = []
  /-- A cell that is told of a reader has it. -/
  input : ∀ {q : ScopeId} {r : ReaderId} {c : CellId} {cell : Cell} {n : String},
    .input c n ∈ w.tree.listeners q r → w.cell? c = some cell → cell.suspended = false →
    cell.Has n q r .reader
  /-- Values are imported into inner scopes. -/
  inward : ∀ {q child : ScopeId} {r : ReaderId} {n : String},
    .importer child n ∈ w.tree.listeners q r → q < child

/-- A price is enough for the commands that a task dispatches and for what it puts on the agenda,
behind what only takes values away. -/
def Pays (t : v.Tariff origin d) (s : ScopeId) (w : Workspace) (k : Nat) (w' : Workspace) : Prop :=
  ∃ front back prices, w'.agenda = front ++ (back ++ w.agenda) ∧
    (∀ task ∈ front, w'.Clears task) ∧ t.CoverAll s w' back prices ∧
    w'.dispatches d + prices.sum ≤ w.dispatches d + k

variable {t : v.Tariff origin d}

theorem Pays.of_nothing (hagenda : w'.agenda = w.agenda) (hhistory : w'.history = w.history) :
    t.Pays s w k w' :=
  ⟨[], [], [], hagenda, by simp, .nil, by simp [dispatches, hhistory]⟩

theorem Pays.push (hagenda : w'.agenda = w.agenda) (hhistory : w'.history = w.history)
    (hcovers : t.CoverAll s (w'.push tasks) tasks prices) (hle : prices.sum ≤ k) :
    t.Pays s w k (w'.push tasks) := by
  refine ⟨[], tasks, prices, congrArg _ hagenda, by simp, hcovers, ?_⟩
  show (w'.history.countP _) + _ ≤ _
  rw [hhistory]
  exact Nat.add_le_add_left hle _

/-! ### Telling of values -/

/-- What it costs to tell somebody. -/
def price (t : v.Tariff origin d) (w : Workspace) : Listener → Nat
  | .input c _ => if w.isAwake c then t.cell c else 0
  | _ => 0

theorem coverAll_tell {ls : List Listener}
    (hinward : ∀ child n, .importer child n ∈ ls → s < child) :
    t.CoverAll s w (ls.map (Task.tell · value)) (ls.map (t.price w)) := by
  refine .of_map fun l hl => ?_
  cases l with
  | input c n => exact fun hawake => (if_pos hawake).ge
  | importer child n => exact hinward child n hl
  | client => trivial

/-- Those who are told of a reader cost as much as those who hear of it. -/
theorem sum_price (t : v.Tariff origin d) (w : Workspace) (s : ScopeId) (r : ReaderId) :
    ((w.tree.listeners s r).map (t.price w)).sum = ((w.hearers s [r]).map t.cell).sum := by
  rw [hearers, List.flatMap_cons, List.flatMap_nil, List.append_nil, ScopeTree.inputs]
  induction w.tree.listeners s r with
  | nil => rfl
  | cons l ls ih =>
    rw [List.map_cons, List.sum_cons, ih]
    cases l with
    | input c n =>
      have hinput : (Listener.input c n :: ls).filterMap Listener.input? =
          (c, n) :: ls.filterMap Listener.input? := rfl
      rw [hinput, List.map_cons, List.filter_cons]
      cases hawake : w.isAwake c <;> simp [price, hawake]
    | importer | client => simp [price, List.filterMap_cons, Listener.input?]

theorem pays_notifyReaders (hpriced : t.Priced s w) (h : t.Covers s w (.notifyReaders q readers) k) :
    t.Pays s w k (w.perform (.notifyReaders q readers)) := by
  cases readers with
  | nil => exact .of_nothing rfl rfl
  | cons r rest =>
    obtain ⟨hq, hle⟩ := h
    have hq := hq (List.cons_ne_nil _ _)
    rw [hearers_cons, List.map_append, List.sum_append, ← t.sum_price w q r] at hle
    have hrest : t.Covers s w (.notifyReaders q rest) ((w.hearers q rest).map t.cell).sum :=
      ⟨fun _ => hq, Nat.le_refl _⟩
    unfold perform
    cases hnotice : w.tree.readerNotice? q r with
    | none =>
      simp only [hnotice]
      exact .push rfl rfl (.cons hrest .nil) (by simp only [List.sum_cons, List.sum_nil]; omega)
    | some notice =>
      obtain ⟨value, ls⟩ := notice
      obtain ⟨-, rfl⟩ := ScopeTree.eq_of_readerNotice? hnotice
      simp only [hnotice]
      have hlisteners : t.CoverAll s w ((w.tree.listeners q r).map (Task.tell · value))
          ((w.tree.listeners q r).map (t.price w)) :=
        coverAll_tell fun child n hmem => Nat.lt_of_le_of_lt hq (hpriced.inward hmem)
      refine .push rfl rfl (List.rel_append hlisteners (.cons hrest .nil)) ?_
      simpa using hle

/-- Those who listen to a definition are subscriptions of the client's. -/
theorem pays_notifyDefinition
    (hsilent : ∀ {s : ScopeId} {x : SlotId} {l : Listener}, l ∈ w.tree.definitionListeners s x →
      ∃ n, l = .client n) :
    t.Pays s w k (w.perform (.notifyDefinition q x)) := by
  unfold perform
  cases hnotice : w.tree.definitionNotice? q x with
  | none =>
    simp only [hnotice]
    exact .of_nothing rfl rfl
  | some notice =>
    obtain ⟨value, ls⟩ := notice
    obtain rfl := ScopeTree.eq_of_definitionNotice? hnotice
    simp only [hnotice]
    have hclient : ∀ l ∈ w.tree.definitionListeners q x, t.price w l = 0 := by
      intro l hl
      obtain ⟨n, rfl⟩ := hsilent hl
      rfl
    have hcovers : t.CoverAll s w ((w.tree.definitionListeners q x).map (Task.tell · value))
        ((w.tree.definitionListeners q x).map (t.price w)) := by
      refine coverAll_tell fun child n hmem => ?_
      obtain ⟨m, heq⟩ := hsilent hmem
      cases heq
    refine .push rfl rfl hcovers ?_
    rw [List.map_congr_left hclient]
    simp

/-- The readers that are told of a change in a scope, and nobody else. -/
theorem pays_spread {result : List ReaderId × ScopeTree} (hq : result.1 ≠ [] → s ≤ q)
    (hinputs : w.tree.ListensLess result.2)
    (hle : ((w.hearers q result.1).map t.cell).sum ≤ k) : t.Pays s w k (w.spread q result) := by
  have hcovers : t.CoverAll s ({ w with tree := result.2 } : Workspace) (noticeTasks q result.1)
      [k, 0] :=
    .cons ⟨hq, (t.sum_cell_le (hearers_withTree hinputs q _)).trans hle⟩ (.cons trivial .nil)
  exact .push rfl rfl hcovers (by simp)

theorem pays_tell (hpriced : t.Priced s w) (hsubscriptions : w.subscriptions = #[])
    (h : t.Covers s w (.tell l value) k) : t.Pays s w k (w.tell value l) := by
  unfold tell
  cases l with
  | importer child n =>
    have hinside : s < child := h
    simp only
    split
    · refine pays_spread (fun _ => Nat.le_of_lt hinside)
        (ScopeTree.listensLess_update w.tree child (·.setImported n value)) ?_
      rw [hpriced.elsewhere (Nat.ne_of_gt hinside)]
      exact Nat.zero_le k
    · exact .of_nothing rfl rfl
  | client n =>
    rw [hsubscriptions]
    exact .of_nothing rfl rfl
  | input c n =>
    simp only
    cases hcell : w.cell? c with
    | none => exact .of_nothing rfl rfl
    | some cell =>
      cases hi : cell.inputs[n]? with
      | none =>
        simp only [hi]
        exact .of_nothing rfl rfl
      | some i =>
        simp only [hi]
        split
        · exact .of_nothing rfl rfl
        split
        · exact .of_nothing rfl rfl
        rename_i hawake
        have hle : t.cell c ≤ k := h ((isAwake_of_cell? hcell).mpr (Bool.not_eq_true _ ▸ hawake))
        have hcovers : ∀ u, t.CoverAll s u [.cell c .refresh, .releaseCell c] [k, 0] :=
          fun u => .cons hle (.cons trivial .nil)
        exact .push rfl rfl (hcovers _) (by simp)

theorem pays_write (hpriced : t.Priced s w) (hconsistent : w.tree.Consistent)
    (h : t.Covers s w (.write q x value) k) : t.Pays s w k (w.write q x value) := by
  obtain ⟨c, cell, n, hcell, hawake, has, hle⟩ := h
  obtain ⟨hscope, rfl, hx⟩ := hpriced.place hcell hawake has
  have houtput : cell.outputs[n]? = some ⟨q, x⟩ := has
  have hheard := hpriced.observers hcell hscope hx (.inr (by rw [houtput]; rintro ⟨⟩))
    (ScopeTree.nodup_write hconsistent q x value)
    fun r hr => ScopeTree.binding?_of_mem_write hconsistent hr
  have hcovers : t.CoverAll q ({ w with tree := (w.tree.write q x value).2.2 } : Workspace)
      [.notifyReaders q (w.tree.write q x value).2.1, .notifyDefinition q x, .releaseScope q]
      [k, 0, 0] := by
    refine .cons ⟨fun _ => Nat.le_refl q, ?_⟩ (.cons trivial (.cons trivial .nil))
    exact (t.sum_cell_le (hearers_withTree (w.tree.listensLess_write q x value) q _)).trans
      (hheard.trans hle)
  unfold write
  simp only
  split
  · exact .push rfl rfl hcovers (by simp)
  · exact .of_nothing rfl rfl

/-! ### Runs -/

theorem pays_dispatch (himmediate : w.backend.Immediate) {plan : Plan} {e : Expr}
    (hplan : cell.plan = some plan) (hnext : plan.next cell.expression = .request e)
    (hle : plan.cost (t.fee c) (t.name c) ≤ k) : t.Pays s w k (w.dispatch c cell e) := by
  obtain ⟨answer, -, hanswer⟩ := himmediate.onDispatch w.nextCommand ⟨c, w.definedInputs cell, e⟩
  obtain ⟨rest, hrest⟩ : ∃ rest, plan.cost (t.fee c) (t.name c) = t.fee c + rest :=
    ⟨_, Plan.cost_of_request hnext .missing⟩
  have hagenda : (w.dispatch c cell e).agenda =
      [.operate (.answer (some w.nextCommand) answer)] ++ w.agenda := by
    show (w.backend.onDispatch _ _).map Task.operate ++ w.agenda = _
    rw [hanswer]
    rfl
  have hdispatches : (w.dispatch c cell e).dispatches d = w.dispatches d + t.fee c := by
    show List.countP _ (w.history ++ [_]) = _
    rw [List.countP_append, List.countP_singleton, Event.dispatchedBy, fee]
    simp only [beq_iff_eq]
    rfl
  refine ⟨[], [.operate (.answer (some w.nextCommand) answer)], [rest], hagenda, by simp,
    .cons (fun command hcommand found hfound _ plan' hplan' => ?_) .nil, ?_⟩
  · -- the command that is answered is the one that has just been sent
    have hsent := (DispatchQueue.find?_dispatch w.commands w.nextCommand w.nextCommand
      ⟨c, w.definedInputs cell, e⟩).symm.trans hcommand
    rw [if_pos rfl] at hsent
    cases hsent
    cases (cell?_putCell w c _).symm.trans hfound
    cases hplan.symm.trans hplan'
    exact ⟨⟨e, hnext⟩, hrest.le⟩
  · rw [hdispatches, List.sum_singleton]
    omega

/-- A run goes on behind the value that a cell has got. -/
theorem coverAll_complete {plan : Plan} {value : Expr} (hawake : cell.suspended = false)
    (hcell : w.cell? c = some (cell.complete plan value).2) :
    ∃ prices, t.CoverAll s w ((cell.complete plan value).1.toList.map
        (fun o => Task.write o.scope o.slot (.defined value)) ++ [.cell c (.advance cell.generation)])
        prices ∧
      prices.sum ≤ (plan.complete cell.expression value).1.elim 0 (t.name c) +
        (plan.complete cell.expression value).2.2.cost (t.fee c) (t.name c) := by
  have hadvance : t.Covers s w (.cell c (.advance cell.generation))
      ((plan.complete cell.expression value).2.2.cost (t.fee c) (t.name c)) := by
    intro found hfound
    cases hcell.symm.trans hfound
    refine ⟨Nat.le_refl _, fun _ plan' hplan' => ?_⟩
    cases hplan'
    exact Nat.le_refl _
  cases htarget : (plan.complete cell.expression value).1 with
  | none =>
    have hnone : (cell.complete plan value).1 = none := by
      show (plan.complete cell.expression value).1.bind _ = none
      rw [htarget, Option.bind_none]
    rw [hnone]
    exact ⟨[_], .cons hadvance .nil, by simp⟩
  | some n =>
    have hbind : (cell.complete plan value).1 = cell.outputs[n]? := by
      show (plan.complete cell.expression value).1.bind _ = _
      rw [htarget, Option.bind_some]
    rw [hbind]
    cases ho : cell.outputs[n]? with
    | none => exact ⟨[_], .cons hadvance .nil, by simp⟩
    | some o =>
      have hwrite : t.Covers s w (.write o.scope o.slot (.defined value)) (t.name c n) :=
        ⟨c, _, n, hcell, hawake, ho, Nat.le_refl _⟩
      exact ⟨[_, _], .cons hwrite (.cons hadvance .nil), by simp⟩

theorem pays_advance (himmediate : w.backend.Immediate) (hcell : w.cell? c = some cell)
    (hawake : cell.suspended = false) {generation : Nat}
    (h : t.Covers s w (.cell c (.advance generation)) k) :
    t.Pays s w k (w.advance c cell generation) := by
  obtain ⟨-, hcost⟩ := h cell hcell
  unfold advance
  split
  · exact .of_nothing rfl rfl
  rename_i hgeneration
  rw [not_not] at hgeneration
  subst hgeneration
  split
  · exact .of_nothing rfl rfl
  rename_i plan hplan
  have hle := hcost rfl plan hplan
  split
  · exact .of_nothing rfl rfl
  · rename_i e hnext
    exact pays_dispatch himmediate hplan hnext hle
  · rename_i target value hnext
    obtain ⟨prices, hcovers, hsum⟩ := coverAll_complete (t := t) (s := s)
      (w := w.putCell c (cell.complete plan value).2) hawake (cell?_putCell w c _)
    rw [Plan.cost_of_assign hnext value] at hle
    exact .push rfl rfl hcovers (hsum.trans hle)

theorem pays_receive {id : CommandId} {command : Command} {answer : Answer}
    {commands : DispatchQueue CommandId Command} (hcommand : w.commands.find? id = some command)
    (hawake : ∀ cell, w.cell? command.cell = some cell → cell.active = some id →
      cell.suspended = false)
    (h : t.Covers s w (.operate (.answer (some id) answer)) k) (outcome : Outcome) :
    t.Pays s w k (({ w with commands } : Workspace).receive id command.cell outcome) := by
  unfold receive
  cases hcell : w.cell? command.cell with
  | none =>
    have hsame : ({ w with commands } : Workspace).cell? command.cell = none := hcell
    rw [hsame]
    exact .of_nothing rfl rfl
  | some cell =>
    have hsame : ({ w with commands } : Workspace).cell? command.cell = some cell := hcell
    rw [hsame]
    simp only
    split
    · exact .of_nothing rfl rfl
    rename_i hactive
    rw [not_not] at hactive
    cases outcome with
    | error e => exact .of_nothing rfl rfl
    | ok value =>
      cases hplan : cell.plan with
      | none =>
        simp only
        exact .of_nothing rfl rfl
      | some plan =>
        -- the command itself was paid for when it was dispatched
        obtain ⟨⟨e, hnext⟩, hle⟩ := h command hcommand cell hcell hactive plan hplan
        simp only
        let idle : Cell := { cell with active := none }
        have hidle : idle.suspended = false := hawake cell hcell hactive
        let new : Workspace := ({ w with commands } : Workspace).putCell command.cell
          (idle.complete plan value).2
        obtain ⟨prices, hcovers, hsum⟩ := coverAll_complete (t := t) (s := s) (w := new) hidle
          (cell?_putCell _ command.cell _)
        have hrelease : t.CoverAll s new [.releaseCell command.cell] [0] := .cons trivial .nil
        have hall : t.CoverAll s new (_ ++ _) (prices ++ [0]) := List.rel_append hcovers hrelease
        rw [List.append_assoc] at hall
        show t.Pays s w k (new.push _)
        refine .push rfl rfl hall ?_
        have hsum : prices.sum ≤ (plan.complete cell.expression value).1.elim 0
            (t.name command.cell) + (plan.complete cell.expression value).2.2.cost
            (t.fee command.cell) (t.name command.cell) := hsum
        rw [Plan.cost_of_request hnext value] at hle
        rw [List.sum_append, List.sum_singleton]
        omega

theorem pays_answer {id : CommandId} {answer : Answer}
    (hawake : ∀ command, w.commands.find? id = some command →
      ∀ cell, w.cell? command.cell = some cell → cell.active = some id → cell.suspended = false)
    (h : t.Covers s w (.operate (.answer (some id) answer)) k) :
    t.Pays s w k (w.perform (.operate (.answer (some id) answer))) := by
  unfold perform operate
  simp only
  split
  · rename_i id' _ hid
    obtain rfl : id = id' := Option.some.inj hid
    unfold answerCommand
    cases hcommand : w.commands.find? id with
    | none =>
      simp only [DispatchQueue.take, hcommand]
      exact .of_nothing rfl rfl
    | some command =>
      simp only [DispatchQueue.take, hcommand]
      cases answer with
      | outcome outcome => exact pays_receive hcommand (hawake command hcommand) h outcome
      | computed => exact pays_receive hcommand (hawake command hcommand) h _
      | unreadable e => exact .of_nothing rfl rfl
  · exact .of_nothing rfl rfl

/-! ### Cells -/

theorem pays_evaluate (hresembles : v.Resembles w) (hcell : w.cell? c = some cell)
    (h : t.Covers s w (.cell c .evaluate) k) : t.Pays s w k (w.performCell c cell .evaluate) := by
  obtain ⟨-, -, hrun⟩ := cell.begin_run fun i => (w.inputValue i).isUnset
  have hplan : ∀ plan ∈ (cell.begin fun i => (w.inputValue i).isUnset).2.plan,
      plan.cost (t.fee c) (t.name c) ≤ k := fun plan hplan =>
    (t.run_le (hresembles.planOf?_eq hcell (Cell.ofExpr_of_mem_begin hplan))).trans h
  unfold performCell
  simp only
  generalize cell.begin (fun i => (w.inputValue i).isUnset) = begun at hrun hplan
  obtain ⟨generation, new⟩ := begun
  rcases hrun with rfl | ⟨hgeneration, -⟩
  · exact .of_nothing rfl rfl
  · obtain rfl : generation = some new.generation := hgeneration
    have hcovers : t.CoverAll s (w.putCell c new) [.cell c (.advance new.generation)] [k] := by
      refine .cons (fun found hfound => ?_) .nil
      cases (cell?_putCell w c _).symm.trans hfound
      exact ⟨Nat.le_refl _, fun _ plan hmem => hplan plan hmem⟩
    exact .push rfl rfl hcovers (by simp)

/-- New readers of a definition that has no value yet are told of nothing. -/
theorem pays_addOutput (htied : w.tree.WellTied) (y : Position) :
    t.Pays s w k (w.performCell c cell (.addOutput q name y)) := by
  unfold performCell
  simp only
  split
  · exact .of_nothing rfl rfl
  split
  · exact .of_nothing rfl rfl
  · rename_i slot told tree hadd
    refine ⟨[.notifyReaders q told], [.cell c (.keepOutput q name slot)], [0], rfl, ?_,
      .cons trivial .nil, by simp [dispatches, Workspace.push]⟩
    intro task ht
    obtain rfl := List.mem_singleton.mp ht
    exact fun r hr => ScopeTree.readerValue_of_mem_addDefinition htied hadd hr

theorem pays_performCell (himmediate : w.backend.Immediate) (hresembles : v.Resembles w)
    (htied : w.tree.WellTied) (hcell : w.cell? c = some cell) {driven : CellTask}
    (hawake : ∀ generation, driven = .advance generation → cell.suspended = false)
    (h : t.Covers s w (.cell c driven) k) : t.Pays s w k (w.performCell c cell driven) := by
  cases driven with
  | refresh =>
    have hcovers : t.CoverAll s w [.cell c .reconsider] [k] := .cons h .nil
    exact ⟨[.cell c .invalidate], [.cell c .reconsider], [k], rfl,
      by simp [Clears], hcovers, by simp [performCell, dispatches, Workspace.push]⟩
  | reconsider =>
    have hcovers : t.CoverAll s w [.cell c .evaluate] [k] := .cons h .nil
    unfold performCell
    simp only
    split
    · exact .push rfl rfl hcovers (by simp)
    · exact .of_nothing rfl rfl
  | evaluate => exact pays_evaluate hresembles hcell h
  | advance generation => exact pays_advance himmediate hcell (hawake generation rfl) h
  | addOutput q n y => exact pays_addOutput htied y
  | keepOutput q n x => exact .of_nothing rfl rfl
  | addInput q n y =>
    unfold performCell
    simp only
    split
    · exact .of_nothing rfl rfl
    split <;> exact .of_nothing rfl rfl
  | endBatch outer always =>
    have hcovers : ∀ u, t.CoverAll s u [.cell c .refresh] [k] := fun u => .cons h.2 .nil
    unfold performCell
    simp only
    split
    · exact .push rfl rfl (hcovers _) (by simp)
    · exact .push rfl rfl .nil (Nat.zero_le k)
  | invalidate | synchronize | enter => exact h.elim

/-! ### Those who are enrolled -/

theorem pays_removeDefinition (hpriced : t.Priced s w) (hresembles : v.Resembles w)
    (hconsistent : w.tree.Consistent) (h : t.Covers s w (.removeDefinition q x) k) :
    t.Pays s w k (w.spread q (w.tree.removeDefinition q x)) := by
  obtain ⟨rfl, hsuspended, hplace⟩ := h
  refine pays_spread (fun _ => Nat.le_refl q) (w.tree.listensLess_removeDefinition q x) ?_
  cases htold : (w.tree.removeDefinition q x).1 with
  | nil => exact Nat.zero_le k
  | cons r rest =>
    obtain ⟨n, y, hx⟩ := ScopeTree.exists_of_mem_removeDefinition hconsistent
      (htold ▸ List.mem_cons_self)
    obtain ⟨⟨first, hfirst, hscope, rfl⟩, hle⟩ := hplace n y hx
    obtain ⟨cell, hcell⟩ := Option.ne_none_iff_exists'.mp
      (hresembles.present (by rw [hfirst]; rintro ⟨⟩))
    obtain ⟨first', hfirst', hposition, hseat, -⟩ := hresembles.cells hcell
    cases hfirst.symm.trans hfirst'
    rw [← hposition] at hx
    refine (hpriced.observers hcell (hseat.trans hscope) hx (.inl (hsuspended cell hcell)) ?_
      ?_).trans hle
    · rw [← htold]
      exact ScopeTree.nodup_removeDefinition hconsistent q x
    · intro r hr
      rw [← htold] at hr
      exact ScopeTree.binding?_of_mem_removeDefinition hconsistent hr

theorem pays_moveDefinition {y : Position} (hconsistent : w.tree.Consistent)
    (h : t.Covers s w (.moveDefinition q x y) k) :
    t.Pays s w k (w.spread q (w.tree.moveDefinition q x y)) := by
  have hnone := ScopeTree.moveDefinition_fst_of_same hconsistent h
  refine pays_spread (fun hne => absurd hnone hne) (w.tree.listensLess_update q _) ?_
  rw [hnone]
  exact Nat.zero_le k

theorem pays_removeReader : t.Pays s w k (w.spread q (w.tree.removeReader q r)) := by
  have hnone := w.tree.removeReader_fst q r
  refine pays_spread (fun hne => absurd hnone hne) (w.tree.listensLess_removeReader q r) ?_
  rw [hnone]
  exact Nat.zero_le k

/-- The cell that has a reader that moves is suspended, and only takes note. -/
theorem pays_moveReader (hpriced : t.Priced s w) {y : Position} (hwithholds : w.Withholds q r .reader)
    (h : t.Covers s w (.moveReader q r y) k) :
    t.Pays s w k (w.spread q (w.tree.moveReader q r y)) := by
  obtain rfl := h
  refine pays_spread (fun _ => Nat.le_refl q) (w.tree.listensLess_update q _) ?_
  have hnone : w.hearers q (w.tree.moveReader q r y).1 = [] := by
    refine List.eq_nil_iff_forall_not_mem.mpr fun c hc => ?_
    obtain ⟨⟨r', hr', n, hl⟩, cell, hcell, hawake⟩ := mem_hearers.mp hc
    obtain rfl := ScopeTree.eq_of_mem_moveReader hr'
    rw [hwithholds c cell n hcell (hpriced.input hl hcell hawake)] at hawake
    cases hawake
  rw [hnone]
  exact Nat.zero_le k

/-! ### All tasks -/

/-- Every task pays for what it sets off. -/
theorem pays_perform {g : Grading} {height : Height} (hsubscriptions : w.subscriptions = #[])
    (himmediate : w.backend.Immediate) (htied : w.tree.WellTied)
    (hsilent : ∀ {s : ScopeId} {x : SlotId} {l : Listener}, l ∈ w.tree.definitionListeners s x →
      ∃ n, l = .client n)
    (hresembles : v.Resembles w) (hunder : w.Under g task height)
    (hpriced : task.phase = .talk ∨ task.phase = .enroll → t.Priced s w)
    (h : t.Covers s w task k) : t.Pays s w k (w.perform task) := by
  have hconsistent : w.tree.Consistent := htied.allConsistent
  cases task with
  | operate op =>
    cases op with
    | answer id answer =>
      cases id with
      | none => exact h.elim
      | some id =>
        exact pays_answer (fun command hcommand cell hcell hactive =>
          (hunder command hcommand cell hcell hactive).1) h
    | _ => exact h.elim
  | notifyReaders q readers =>
    cases readers with
    | nil => exact .of_nothing rfl rfl
    | cons r rest => exact pays_notifyReaders (hpriced (.inl rfl)) h
  | notifyDefinition q x => exact pays_notifyDefinition hsilent
  | tell l value => exact pays_tell (hpriced (.inl rfl)) hsubscriptions h
  | write q x value => exact pays_write (hpriced (.inl rfl)) hconsistent h
  | moveDefinition q x y => exact pays_moveDefinition hconsistent h
  | moveReader q r y => exact pays_moveReader (hpriced (.inr rfl)) hunder.1 h
  | removeDefinition q x =>
    exact pays_removeDefinition (hpriced (.inr rfl)) hresembles hconsistent h
  | removeReader q r => exact pays_removeReader
  | keepDefinition | releaseScope | releaseCell => exact .of_nothing rfl rfl
  | cancel id =>
    exact ⟨[], [], [], agenda_of_release himmediate rfl, by simp, .nil, by simp [dispatches_cancel]⟩
  | cell c driven =>
    cases hcell : w.cell? c with
    | none =>
      rw [perform_cell_of_none hcell]
      exact .of_nothing rfl rfl
    | some cell =>
      rw [perform_cell hcell]
      refine pays_performCell himmediate hresembles htied hcell ?_ h
      rintro generation rfl
      exact (hunder cell hcell).1

end Tariff

end Workspace

end MathCanvas
