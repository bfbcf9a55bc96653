import MathCanvas.Proofs.Expr.Names
import MathCanvas.Proofs.Workspace.Posting
import MathCanvas.Proofs.Workspace.Preserves

/-!
# Cells have what they want

A cell in a scope has an output for each name that its expression writes and an input for each name
that it reads, or a task is going to add it (`Workspace.Supplies`). While the expression is another
one this is not so, but then the cell is going to be brought in step. Results that are put into the
expression leave the names as they are.
-/

namespace MathCanvas

variable {agenda agenda' rest : List Task} {c c' : CellId} {cell cell' : Cell} {name n : String}
  {s : ScopeId} {x : Nat} {y : Position} {k : Role} {task : Task} {driven : CellTask}

/-- What is wanted does not depend on results. -/
theorem Cell.wants_congr (h : cell'.expression.blanked = cell.expression.blanked) (k : Role) :
    cell'.wants k = cell.wants k := by
  cases k with
  | definition => exact Expr.writtenNames_congr h
  | reader => exact Expr.readNames_congr h

/-- What a task adds to a cell, or hands over to it. -/
def CellTask.grants? : CellTask → Option (String × Role)
  | .addOutput _ name _ | .keepOutput _ name _ => some (name, .definition)
  | .addInput _ name _ => some (name, .reader)
  | _ => none

theorem CellTask.rank_of_grants? (h : driven.grants? = some (name, k)) :
    (Task.cell c driven).rank ≠ .idle ∧ (Task.cell c driven).rank ≠ .turn := by
  cases driven with
  | addOutput | keepOutput | addInput => simp [Task.rank]
  | _ => cases h

/-- A cell has an output or an input of a name, or is going to have one. -/
def Gets (agenda : List Task) (c : CellId) (cell : Cell) (name : String) (k : Role) : Prop :=
  (∃ s x, cell.Has name s x k) ∨
    ∃ driven, .cell c driven ∈ agenda ∧ driven.grants? = some (name, k)

/-- A cell is going to enter a scope or to be brought in step. -/
def Turns (agenda : List Task) (c : CellId) : Prop :=
  ∃ driven, .cell c driven ∈ agenda ∧ (Task.cell c driven).rank = .turn

/-- A cell in a scope has what it wants and nothing else, or is going to. -/
def Supplied (agenda : List Task) (c : CellId) (cell : Cell) : Prop :=
  Turns agenda c ∨ (cell.scope ≠ none → ∀ name k, name ∈ cell.wants k ↔ Gets agenda c cell name k)

/-- The cell is where it was and wants what it wanted. -/
theorem Supplied.of_gets (h : Supplied agenda c cell) (hscope : cell'.scope = cell.scope)
    (hblanked : cell'.expression.blanked = cell.expression.blanked)
    (hturns : Turns agenda c → Turns agenda' c)
    (hgets : cell.scope ≠ none → ∀ name k,
      Gets agenda' c cell' name k ↔ Gets agenda c cell name k) : Supplied agenda' c cell' := by
  refine h.imp hturns fun hwants hattached name k => ?_
  rw [hscope] at hattached
  rw [Cell.wants_congr hblanked, hwants hattached name k, hgets hattached]

/-- The tasks about the cell that count are the same ones. -/
theorem Supplied.congr (h : Supplied agenda c cell) (hsame : cell'.SamePost cell)
    (hblanked : cell'.expression.blanked = cell.expression.blanked)
    (hagenda : ∀ driven, (Task.cell c driven).rank ≠ .idle →
      (.cell c driven ∈ agenda' ↔ .cell c driven ∈ agenda)) : Supplied agenda' c cell' := by
  refine h.of_gets hsame.scope hblanked ?_ fun _ name k => ?_
  · rintro ⟨driven, hmem, hrank⟩
    exact ⟨driven, (hagenda driven (by rw [hrank]; rintro ⟨⟩)).mpr hmem, hrank⟩
  · refine or_congr (by simp only [hsame.has_iff]) (exists_congr fun driven => ?_)
    exact and_congr_left fun hgrants => hagenda driven (CellTask.rank_of_grants? hgrants).1

namespace Workspace

variable {w w' : Workspace} {backend : Backend}

/-- The cells have what they want, or are going to. -/
def Supplies (w : Workspace) (agenda : List Task) : Prop :=
  ∀ (c : CellId) (cell : Cell), w.cell? c = some cell → Supplied agenda c cell

namespace Supplies

/-- The cells are as they were, and so are the tasks about them that count. -/
theorem carry (h : w.Supplies agenda)
    (hcells : ∀ {c : CellId} {cell' : Cell}, w'.cell? c = some cell' → ∃ cell,
      w.cell? c = some cell ∧ cell'.SamePost cell ∧
        cell'.expression.blanked = cell.expression.blanked)
    (hagenda : ∀ {c : CellId} {driven : CellTask}, (Task.cell c driven).rank ≠ .idle →
      (.cell c driven ∈ agenda' ↔ .cell c driven ∈ agenda)) : w'.Supplies agenda' := by
  intro c cell' hcell'
  obtain ⟨cell, hcell, hsame, hblanked⟩ := hcells hcell'
  exact (h _ _ hcell).congr hsame hblanked fun driven => hagenda

/-- One cell becomes another one, and nothing that counts is put on the agenda about others. -/
theorem of_cell (h : w.Supplies agenda) {new : Cell}
    (hcells : ∀ {c' : CellId} {cell' : Cell}, w'.cell? c' = some cell' →
      c' = c ∧ cell' = new ∨ c' ≠ c ∧ w.cell? c' = some cell')
    (hself : Supplied agenda' c new)
    (hagenda : ∀ {c' : CellId} {driven : CellTask}, c' ≠ c → (Task.cell c' driven).rank ≠ .idle →
      (.cell c' driven ∈ agenda' ↔ .cell c' driven ∈ agenda)) : w'.Supplies agenda' := by
  intro c' cell' hcell'
  rcases hcells hcell' with ⟨rfl, rfl⟩ | ⟨hne, hcell⟩
  · exact hself
  · exact (h _ _ hcell).congr (.refl _) rfl fun driven => hagenda hne

theorem putCell (h : w.Supplies agenda) {new : Cell} (hself : Supplied agenda' c new)
    (hagenda : ∀ {c' : CellId} {driven : CellTask}, c' ≠ c → (Task.cell c' driven).rank ≠ .idle →
      (.cell c' driven ∈ agenda' ↔ .cell c' driven ∈ agenda)) :
    (w.putCell c new).Supplies agenda' :=
  h.of_cell Posted.eq_or_of_cell? hself hagenda

/-- Tasks that are not about cells, or idle, are put on the agenda or left out. -/
theorem of_tasks (h : w.Supplies agenda) (hcells : w'.cells = w.cells)
    (hagenda : ∀ {c : CellId} {driven : CellTask}, (Task.cell c driven).rank ≠ .idle →
      (.cell c driven ∈ agenda' ↔ .cell c driven ∈ agenda)) : w'.Supplies agenda' :=
  h.carry (fun hcell' => ⟨_, by rwa [cell?, hcells] at hcell', .refl _, rfl⟩) hagenda

/-! ### Cells that enter a scope or are brought in step -/

theorem batch (h : w.Supplies agenda) (new : Cell) (always : Bool)
    (hagenda : ∀ {c' : CellId} {driven : CellTask}, c' ≠ c → (Task.cell c' driven).rank ≠ .idle →
      (.cell c' driven ∈ w.agenda ↔ .cell c' driven ∈ agenda)) :
    (w.batch c new always).Supplies (w.batch c new always).agenda := by
  refine h.putCell (.inl ⟨.synchronize, List.mem_cons_self, rfl⟩) fun {c' driven} hne hrank => ?_
  refine List.mem_append.trans ((or_iff_right ?_).trans (hagenda hne hrank))
  simp [hne]

theorem setScope {scope : Option ScopeId} (h : w.Supplies w.agenda) (c : CellId) (cell : Cell) :
    (w.setScope c cell scope).Supplies (w.setScope c cell scope).agenda := by
  by_cases hsame : cell.scope = scope
  · rw [Workspace.setScope, if_pos hsame]
    exact h
  obtain ⟨tasks, heq, -, htasks⟩ := w.setScope_spec c cell hsame
  rw [heq]
  refine h.putCell (.inl ⟨.enter scope, ?_, rfl⟩) fun {c' driven} hne hrank => ?_
  · exact List.mem_append_left _ ((htasks _ (by simp [Task.rank])).mpr .enter)
  · refine List.mem_append.trans (or_iff_right fun hmem => ?_)
    generalize htask : Task.cell c' driven = task at hmem hrank
    cases (htasks _ hrank).mp hmem with
    | @remove k => cases k <;> cases htask
    | enter =>
      cases htask
      exact hne rfl

/-- A cell that is brought in step gets what it wants. -/
theorem synchronize (h : w.Supplies (.cell c .synchronize :: w.agenda))
    (hidle : AllIdle w.agenda) (s : ScopeId) :
    (w.synchronize c cell s).Supplies (w.synchronize c cell s).agenda := by
  obtain ⟨tasks, heq, -, -, htasks⟩ := w.synchronize_spec c cell s
  rw [heq]
  have hsteps : ∀ {c' driven}, (Task.cell c' driven).rank ≠ .idle →
      (.cell c' driven ∈ tasks ++ w.agenda ↔ Steps c cell s (.cell c' driven)) := by
    intro c' driven hrank
    rw [List.mem_append, htasks _ hrank, or_iff_left (hidle.not_mem hrank)]
  have hown : ∀ {c' driven}, Steps c cell s (.cell c' driven) → ∃ k n,
      .cell c' driven = k.adding c s n (cell.place n k) ∧ n ∈ cell.wants k := by
    intro c' driven hstep
    generalize htask : Task.cell c' driven = task at hstep
    cases hstep with
    | @remove k | @move k => cases k <;> cases htask
    | @add k n wanted => exact ⟨k, n, rfl, wanted⟩
  refine h.putCell (.inr fun _ name k => ⟨fun hname => .inr ?_, fun hgets => ?_⟩) fun {c' driven} hne hrank => ?_
  · have hstep : Steps c cell s (k.adding c s name (cell.place name k)) := .add hname
    cases k with
    | definition =>
      exact ⟨.addOutput s name (cell.place name .definition), (hsteps (by simp [Task.rank])).mpr hstep, rfl⟩
    | reader => exact ⟨.addInput s name (cell.place name .reader), (hsteps (by simp [Task.rank])).mpr hstep, rfl⟩
  · rcases hgets with ⟨q, x, has⟩ | ⟨driven, hmem, hgrants⟩
    · exact (Cell.has_inStep_iff.mp has).2
    · obtain ⟨j, n, heq, wanted⟩ :=
        hown ((hsteps (CellTask.rank_of_grants? (c := c) hgrants).1).mp hmem)
      cases j <;>
      · cases heq
        cases hgrants
        exact wanted
  · rw [Workspace.push]
    refine (hsteps hrank).trans (iff_of_false (fun hstep => ?_) fun hmem => ?_)
    · obtain ⟨j, n, heq, -⟩ := hown hstep
      cases j <;>
      · cases heq
        exact hne rfl
    · rcases List.mem_cons.mp hmem with heq | hmem
      · cases heq
        exact hne rfl
      · exact hidle.not_mem hrank hmem

/-! ### Cells that get an output or an input -/

/-- A task that adds to a cell or hands over is done, and the cell has what it gets, or another task
is going to hand it over. -/
theorem grant (h : w.Supplies (.cell c driven :: agenda)) (hgrants : driven.grants? = some (name, k))
    (hcell : w.cell? c = some cell) {new : Cell}
    (hcells : ∀ {c' : CellId} {cell' : Cell}, w'.cell? c' = some cell' →
      c' = c ∧ cell' = new ∨ c' ≠ c ∧ w.cell? c' = some cell')
    (hscope : new.scope = cell.scope) (hexpression : new.expression = cell.expression)
    (hother : ∀ {n j}, (n, j) ≠ (name, k) → ((∃ s x, new.Has n s x j) ↔ ∃ s x, cell.Has n s x j))
    (htasks : ∀ {c' : CellId} {next : CellTask}, (Task.cell c' next).rank ≠ .idle →
      .cell c' next ∈ agenda → .cell c' next ∈ agenda')
    (hnew : ∀ {c' : CellId} {next : CellTask}, (Task.cell c' next).rank ≠ .idle →
      .cell c' next ∈ agenda' → .cell c' next ∈ agenda ∨ c' = c ∧ next.grants? = some (name, k))
    (hgets : cell.scope ≠ none → Gets agenda' c new name k) : w'.Supplies agenda' := by
  have hturn : ∀ {next : CellTask}, next.grants? = some (name, k) →
      (Task.cell c next).rank ≠ .turn := fun hnext => (CellTask.rank_of_grants? hnext).2
  refine h.of_cell hcells ((h _ _ hcell).of_gets hscope (by rw [hexpression]) ?_ fun hattached n j => ?_) fun {c' next} hne hrank => ?_
  · rintro ⟨next, hmem, hrank⟩
    refine ⟨next, htasks (by rw [hrank]; rintro ⟨⟩) ((List.mem_cons.mp hmem).resolve_left ?_), hrank⟩
    rintro ⟨⟩
    exact hturn hgrants hrank
  · by_cases hself : (n, j) = (name, k)
    · cases hself
      exact iff_of_true (hgets hattached) (.inr ⟨driven, List.mem_cons_self, hgrants⟩)
    refine or_congr (hother hself) (exists_congr fun next => and_congr_left fun hnext => ?_)
    have hrank := (CellTask.rank_of_grants? (c := c) hnext).1
    constructor
    · intro hmem
      refine List.mem_cons_of_mem _ ((hnew hrank hmem).resolve_right fun hsame => hself ?_)
      exact Option.some.inj (hnext.symm.trans hsame.2)
    · intro hmem
      refine htasks hrank ((List.mem_cons.mp hmem).resolve_left ?_)
      rintro ⟨⟩
      exact hself (Option.some.inj (hnext.symm.trans hgrants))
  · constructor
    · exact fun hmem => List.mem_cons_of_mem _ ((hnew hrank hmem).resolve_right fun h => hne h.1)
    · intro hmem
      refine htasks hrank ((List.mem_cons.mp hmem).resolve_left ?_)
      rintro ⟨⟩
      exact hne rfl

/-- A task is done that neither adds anything to a cell nor brings one in step. -/
theorem drop (h : w.Supplies (task :: agenda))
    (htask : ∀ {c : CellId} {driven : CellTask}, (Task.cell c driven).rank ≠ .idle →
      task ≠ .cell c driven) : w.Supplies agenda := by
  refine h.of_tasks rfl fun hrank => ⟨List.mem_cons_of_mem _, fun hmem => ?_⟩
  exact (List.mem_cons.mp hmem).resolve_left fun heq => htask hrank heq.symm

/-- All cells stay, and one of them in particular. -/
theorem eq_or_of_same (hcell : w.cell? c = some cell) (hcell' : w.cell? c' = some cell') :
    c' = c ∧ cell' = cell ∨ c' ≠ c ∧ w.cell? c' = some cell' := by
  by_cases hc : c' = c
  · subst hc
    exact .inl ⟨rfl, Option.some.inj (hcell'.symm.trans hcell)⟩
  · exact .inr ⟨hc, hcell'⟩

/-- A cell has already what a task is to add. -/
theorem drop_granted (h : w.Supplies (.cell c driven :: agenda))
    (hgrants : driven.grants? = some (name, k)) (hcell : w.cell? c = some cell)
    (hgets : cell.scope ≠ none → Gets agenda c cell name k) : w.Supplies agenda :=
  h.grant hgrants hcell (eq_or_of_same hcell) rfl rfl (fun _ => .rfl) (fun _ => id) (fun _ => .inl) hgets

theorem addOutput (h : w.Supplies (.cell c (.addOutput s name y) :: w.agenda))
    (hcell : w.cell? c = some cell) (hhoused : w.tree.get? s ≠ none) :
    (w.performCell c cell (.addOutput s name y)).Supplies
      (w.performCell c cell (.addOutput s name y)).agenda := by
  unfold performCell
  simp only
  split
  · rename_i hcontains
    rw [Std.TreeMap.contains_eq_isSome_getElem?, Option.isSome_iff_exists] at hcontains
    obtain ⟨o, ho⟩ := hcontains
    exact h.drop_granted rfl hcell fun _ => .inl ⟨o.scope, o.slot, ho⟩
  split
  · rename_i hadd
    rw [ScopeTree.addDefinition, Option.map_eq_none_iff] at hadd
    exact absurd hadd hhoused
  · rename_i slot readers tree hadd
    refine h.grant rfl hcell (eq_or_of_same hcell) rfl rfl (fun _ => .rfl)
      (fun _ => List.mem_append_right _) (fun hrank hmem => ?_)
      fun _ => .inr ⟨.keepOutput s name slot, List.mem_cons_of_mem _ List.mem_cons_self, rfl⟩
    rcases List.mem_append.mp hmem with hmem | hmem
    · simp only [List.mem_cons, reduceCtorEq, List.not_mem_nil, or_false, false_or] at hmem
      cases hmem
      exact .inr ⟨rfl, rfl⟩
    · exact .inl hmem

theorem keepOutput (h : w.Supplies (.cell c (.keepOutput s name x) :: agenda))
    (hcell : w.cell? c = some cell) :
    (w.performCell c cell (.keepOutput s name x)).Supplies agenda := by
  refine h.grant rfl hcell Posted.eq_or_of_cell? rfl rfl (fun {n j} hne => ?_) (fun _ => id) (fun _ => .inl)
    fun _ => .inl ⟨s, x, lookup_insert_self ..⟩
  cases j with
  | definition =>
    have hn : name ≠ n := fun heq => hne (by rw [heq])
    simp only [Cell.Has, lookup_insert_of_ne _ _ hn]
  | reader => rfl

theorem addInput (h : w.Supplies (.cell c (.addInput s name y) :: w.agenda))
    (hcell : w.cell? c = some cell) (hhoused : w.tree.get? s ≠ none) :
    (w.performCell c cell (.addInput s name y)).Supplies
      (w.performCell c cell (.addInput s name y)).agenda := by
  unfold performCell
  simp only
  split
  · rename_i hcontains
    rw [Std.TreeMap.contains_eq_isSome_getElem?, Option.isSome_iff_exists] at hcontains
    obtain ⟨i, hi⟩ := hcontains
    exact h.drop_granted rfl hcell fun _ => .inl ⟨_, _, Cell.has_reader_iff.mpr ⟨i, hi, rfl, rfl⟩⟩
  split
  · rename_i hadd
    rw [ScopeTree.addReader, Option.map_eq_none_iff] at hadd
    exact absurd hadd hhoused
  · rename_i reader readers tree hadd
    refine h.grant rfl hcell Posted.eq_or_of_cell? rfl rfl (fun {n j} hne => ?_) (fun _ => id) (fun _ => .inl)
      fun _ => .inl ⟨s, reader, (cell.reader?_insert name _ _).trans (if_pos rfl)⟩
    cases j with
    | definition => rfl
    | reader =>
      have hn : name ≠ n := fun heq => hne (by rw [heq])
      simp only [Cell.Has, cell.reader?_insert name, if_neg hn]

/-! ### Operations of the client -/

/-- Tasks that are not about cells are put on the agenda. -/
theorem push (h : w.Supplies w.agenda) {tasks : List Task}
    (htasks : ∀ {c : CellId} {driven : CellTask}, .cell c driven ∉ tasks) :
    (w.push tasks).Supplies (w.push tasks).agenda :=
  h.of_tasks rfl fun _ => List.mem_append.trans (or_iff_right htasks)

theorem onHeldCell {f : Cell → Workspace} (h : w.Supplies w.agenda)
    (hf : ∀ cell, w.cell? c = some cell → (f cell).Supplies (f cell).agenda) :
    (w.onHeldCell c f).Supplies (w.onHeldCell c f).agenda := by
  unfold Workspace.onHeldCell onCell
  split
  · split
    · rename_i cell hcell
      exact hf cell hcell
    · exact h
  · exact h

theorem operate {op : Op} (h : w.Supplies (.operate op :: w.agenda))
    (henlists : op.enlists = true) : (w.operate op).2.Supplies (w.operate op).2.agenda := by
  have hsame : w.Supplies w.agenda := h.drop fun _ => (by rintro ⟨⟩)
  cases op with
  | addDefinition s name y =>
    unfold Workspace.operate
    simp only
    split
    · split
      · rename_i slot readers tree hadd
        exact hsame.of_tasks rfl fun _ => List.mem_append.trans (or_iff_right (by simp))
      · exact hsame
    · exact hsame
  | addReader s name y =>
    unfold Workspace.operate
    simp only
    split
    · split
      · exact hsame.of_tasks rfl fun _ => .rfl
      · exact hsame
    · exact hsame
  | move handle y =>
    cases handle <;>
    · unfold Workspace.operate
      simp only
      split
      · exact hsame.push (by simp)
      · exact hsame
  | remove handle =>
    cases handle <;>
    · unfold Workspace.operate
      simp only
      split
      · exact hsame.push (by simp)
      · exact hsame
  | newCell position expression scope automatic =>
    -- a cell without a scope wants nothing
    have hmade : (w.putCell w.nextCell { expression, position, automatic }).Supplies w.agenda :=
      hsame.putCell (.inr fun hattached => absurd rfl hattached) fun _ _ => .rfl
    exact setScope (w := ({ w with nextCell := w.nextCell + 1, heldCells := w.heldCells ++ [w.nextCell] } :
      Workspace).putCell w.nextCell { expression, position, automatic })
      (hmade.of_tasks rfl fun _ => .rfl) w.nextCell _
  | setScope c scope =>
    refine hsame.onHeldCell fun cell hcell => ?_
    split
    · exact hsame.setScope c cell
    · exact hsame
  | setExpression c e =>
    exact hsame.onHeldCell fun cell _ => batch (w := w.push [.releaseCell c]) (hsame.push (by simp)) _ true
      fun _ _ => .rfl
  | setPosition c y =>
    refine hsame.onHeldCell fun cell _ => ?_
    split
    · exact hsame
    · exact batch (w := w.push [.releaseCell c]) (hsame.push (by simp)) _ false fun _ _ => .rfl
  | _ => cases henlists

/-! ### Tasks -/

/-- One task leaves the cells with what they want, or brings them nearer to it. -/
theorem perform (h : w.Supplies (task :: w.agenda)) (htied : w.tree.WellTied)
    (hposted : w.Posted (task :: w.agenda))
    (hblanked : ∀ {c cell cell'}, w.cell? c = some cell → (w.perform task).cell? c = some cell' →
      (∀ e, task ≠ .operate (.setExpression c e)) →
      cell'.expression.blanked = cell.expression.blanked) :
    (w.perform task).Supplies (w.perform task).agenda := by
  by_cases hcalm : ∀ op, task = .operate op → op.enlists = false
  swap
  · obtain ⟨op, rfl, henlists⟩ : ∃ op, task = .operate op ∧ op.enlists = true := by
      simpa using hcalm
    exact h.operate henlists
  by_cases hidle : task.rank = .idle
  · have hrests := perform_rests htied hidle hcalm
    obtain ⟨tasks, hagenda, htasks⟩ := hrests.agenda
    refine h.carry (fun {c cell'} hcell' => ?_) fun {c driven} hrank => ?_
    · obtain ⟨cell, hcell, hsame⟩ := samePost_perform hidle hcalm hcell'
      refine ⟨cell, hcell, hsame, hblanked hcell hcell' ?_⟩
      rintro e rfl
      cases hcalm _ rfl
    · have hne : .cell c driven ≠ task := by
        rintro rfl
        exact hrank hidle
      rw [hagenda, List.mem_append, List.mem_cons, or_iff_right (htasks.not_mem hrank),
        or_iff_right hne]
  have hdrop : (∀ {c driven}, (Task.cell c driven).rank ≠ .idle → task ≠ .cell c driven) →
      w.Supplies w.agenda := h.drop
  cases task with
  | moveDefinition | moveReader | removeDefinition | removeReader =>
    exact (hdrop fun _ => (by rintro ⟨⟩)).of_tasks rfl fun _ => List.mem_append.trans (or_iff_right (by
      simp [noticeTasks]))
  | keepDefinition s x name => exact (hdrop fun _ => (by rintro ⟨⟩)).of_tasks rfl fun _ => .rfl
  | cell c driven =>
    cases hcell : w.cell? c with
    | none =>
      rw [perform_cell_of_none hcell]
      intro c' cell' hcell'
      refine (h c' cell' hcell').congr (.refl _) rfl fun next _ => ⟨List.mem_cons_of_mem _, fun hmem => ?_⟩
      refine (List.mem_cons.mp hmem).resolve_left ?_
      rintro ⟨⟩
      cases hcell.symm.trans hcell'
    | some cell =>
      rw [perform_cell hcell]
      have hhoused : ∀ {s}, cell.scope = some s → w.tree.get? s ≠ none := hposted.housed hcell
      cases driven with
      | enter scope =>
        refine h.batch _ true fun hne _ => ⟨List.mem_cons_of_mem _, fun hmem => ?_⟩
        refine (List.mem_cons.mp hmem).resolve_left ?_
        rintro ⟨⟩
        exact hne rfl
      | synchronize =>
        cases hscope : cell.scope with
        | some s =>
          unfold performCell
          simp only [hscope]
          exact h.synchronize (hposted.queued.allIdle_of_turn rfl) s
        | none =>
          unfold performCell
          simp only [hscope]
          refine h.of_cell (eq_or_of_same hcell) (.inr fun hattached => absurd hscope hattached)
            fun hne _ => ⟨List.mem_cons_of_mem _, fun hmem => ?_⟩
          refine (List.mem_cons.mp hmem).resolve_left ?_
          rintro ⟨⟩
          exact hne rfl
      | addOutput s name y =>
        exact h.addOutput hcell (hhoused (hposted.adding (k := .definition) List.mem_cons_self hcell).1)
      | keepOutput s name x => exact h.keepOutput hcell
      | addInput s name y =>
        exact h.addInput hcell (hhoused (hposted.adding (k := .reader) List.mem_cons_self hcell).1)
      | _ => exact absurd rfl hidle
  | _ => exact absurd rfl hidle

/-! ### Chronicles -/

theorem sweep (h : w.Supplies w.agenda) : w.sweep.Supplies w.sweep.agenda := by
  obtain ⟨cells, tree, hsweep, hcells⟩ := w.exists_sweep_eq
  rw [hsweep]
  exact h.carry (fun hcell => ⟨_, hcells hcell, .refl _, rfl⟩) fun _ => .rfl

theorem call (h : w.Supplies w.agenda) (hquiet : w.agenda = []) (op : Op) :
    (w.call op).Supplies (w.call op).agenda := by
  refine h.of_tasks rfl fun _ => ?_
  rw [hquiet]
  simp [Workspace.call]

/-- When nothing is in progress, a cell in a scope has what it wants and nothing else. -/
theorem mem_wants_iff (h : w.Supplies w.agenda) (hquiet : w.agenda = [])
    (hcell : w.cell? c = some cell) (hattached : cell.scope ≠ none) (name : String) (k : Role) :
    name ∈ cell.wants k ↔ ∃ s x, cell.Has name s x k := by
  have hwants := (h c cell hcell).resolve_left (by simp [Turns, hquiet])
  rw [hwants hattached name k]
  simp [Gets, hquiet]

end Supplies

end Workspace

end MathCanvas
