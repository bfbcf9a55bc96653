import MathCanvas.Proofs.Document.Layout

/-!
# Working on one cell

An edit of a document works on its cells one after the other, and each turn has up to three phases. A
cell that changes its scope gives up its definitions (`Workspace.Leaving`) and then enters the new
one. When a cell has entered a scope or got another expression or position, the first task is to bring
its outputs in step (`Workspace.Entering`). After that, its definitions are removed, moved and added
one by one (`Workspace.Fitting`).

`Workspace.Busy` says that a turn is in progress, by the tasks of the agenda that arrange definitions.
Every step goes on with the turn (`Workspace.Busy.step`), until it is over and nothing is left to be
arranged (`Workspace.Busy.tidy`).
-/

namespace MathCanvas

/-- The definitions that outputs of a cell stand for. -/
def definitionsOf (outputs : List (String × CellOutput)) : List (ScopeId × SlotId) :=
  outputs.map fun entry => (entry.2.scope, entry.2.slot)

theorem mem_definitionsOf {outputs : List (String × CellOutput)} {s : ScopeId} {x : SlotId} :
    (s, x) ∈ definitionsOf outputs ↔ ∃ name, (name, ⟨s, x⟩) ∈ outputs := by
  rw [definitionsOf, List.mem_map]
  constructor
  · rintro ⟨⟨name, o⟩, hmem, heq⟩
    cases heq
    exact ⟨name, hmem⟩
  · rintro ⟨name, hmem⟩
    exact ⟨_, hmem, rfl⟩

namespace Cell

variable {cell : Cell} {inputs : Std.TreeMap String CellInput} {o : CellOutput} {name : String}
  {s : ScopeId} {x : SlotId}

/-- The outputs that a cell needs. -/
def kept (cell : Cell) : List (String × CellOutput) :=
  cell.outputs.toList.filter fun entry => cell.expression.writtenNames.contains entry.1

/-- The outputs that a cell does not need any more. -/
def dropped (cell : Cell) : List (String × CellOutput) :=
  cell.outputs.toList.filter fun entry => !cell.expression.writtenNames.contains entry.1

/-- The cell with the inputs and outputs that it needs. -/
def fitted (cell : Cell) (inputs : Std.TreeMap String CellInput) : Cell :=
  { cell with inputs, outputs := Std.TreeMap.ofList cell.kept }

theorem outputs_fitted : (cell.fitted inputs).outputs[name]? = some o ↔
    cell.outputs[name]? = some o ∧ name ∈ cell.expression.writtenNames := by
  rw [← List.contains_iff_mem]
  exact lookup_ofList_filter_eq_some_iff

theorem mem_kept : (s, x) ∈ definitionsOf cell.kept ↔ ∃ name : String,
    cell.outputs[name]? = some ⟨s, x⟩ ∧ name ∈ cell.expression.writtenNames := by
  rw [mem_definitionsOf]
  refine exists_congr fun name => ?_
  rw [kept, List.mem_filter, Std.TreeMap.mem_toList_iff_getElem?_eq_some, List.contains_iff_mem]

theorem mem_dropped : (s, x) ∈ definitionsOf cell.dropped ↔ ∃ name : String,
    cell.outputs[name]? = some ⟨s, x⟩ ∧ name ∉ cell.expression.writtenNames := by
  rw [mem_definitionsOf]
  refine exists_congr fun name => ?_
  rw [dropped, List.mem_filter, Std.TreeMap.mem_toList_iff_getElem?_eq_some, Bool.not_eq_true',
    ← Bool.not_eq_true, List.contains_iff_mem]

end Cell

namespace Workspace

variable {w w' : Workspace} {ties : Prop} {l : Layout} {c : CellId} {cell : Cell} {s : ScopeId}
  {name : String} {names : List String} {x : SlotId} {p : Position} {R M : List (ScopeId × SlotId)}
  {K : Option Promise}

/-- A cell is in a scope, or in none. -/
def Lodges (w : Workspace) (c : CellId) (scope : Option ScopeId) : Prop :=
  ∀ cell, w.cell? c = some cell → cell.scope = scope

theorem Lodges.retain {scope : Option ScopeId} (h : w.Retains w') (hlodges : w.Lodges c scope) :
    w'.Lodges c scope := by
  intro cell' hcell'
  obtain ⟨cell, hcell, hseat⟩ := h.cell hcell'
  exact (congrArg (·.1) hseat).trans (hlodges cell hcell)

theorem lodges_putCell {c' : CellId} {cell' : Cell} {scope : Option ScopeId}
    (hself : c' = c → cell'.scope = scope) (hother : c' ≠ c → w.Lodges c' scope) :
    (w.putCell c cell').Lodges c' scope := by
  intro found hfound
  rw [cell?, putCell, lookup_insert] at hfound
  split at hfound
  · rename_i heq
    cases hfound
    exact hself heq.symm
  · rename_i hne
    exact hother (Ne.symm hne) found hfound

/-- Nothing about the definitions and cells is in progress: cells and definitions are where the layout
says, and if ties are kept, definitions stand in the order of the cells. -/
structure Tidy (ties : Prop) (l : Layout) (w : Workspace) : Prop where
  housed : w.Housed l [] [] none
  lodged : ∀ c ∈ l.order, w.Lodges c (l.scope c)
  ranked : ties → w.Ranked l none

theorem Tidy.retain (h : w.Retains w') (ht : w.Tidy ties l) : w'.Tidy ties l :=
  ⟨ht.housed.retain h, fun c hc => (ht.lodged c hc).retain h, fun hties => (ht.ranked hties).retain h⟩

/-- A cell has no inputs and outputs, and definitions that it had are going to be removed. -/
structure Leaving (ties : Prop) (l : Layout) (c : CellId) (R : List (ScopeId × SlotId))
    (w : Workspace) : Prop where
  listed : c ∈ l.order
  bare : ∀ s name x, w.outputOf c s name ≠ some x
  housed : w.Housed l R [] none
  lodged : ∀ c' ∈ l.order, c' ≠ c → w.Lodges c' (l.scope c')
  ranked : ties → w.Ranked l none
  last : ties → l.LastInScope c

/-- The outputs of a cell are not yet in step with its expression, and some of them are going to be
moved. -/
structure Entering (ties : Prop) (l : Layout) (c : CellId) (M : List (ScopeId × SlotId))
    (w : Workspace) : Prop where
  listed : c ∈ l.order
  own : ∀ {s : ScopeId} {x : SlotId}, (s, x) ∈ M → ∃ name, w.outputOf c s name = some x
  housed : w.Housed l [] M none
  lodged : ∀ c' ∈ l.order, w.Lodges c' (l.scope c')
  ranked : ties → w.Ranked l none
  free : ties → ∀ cell, w.cell? c = some cell → ∀ s, l.scope c = some s →
    ∀ name ∈ cell.expression.writtenNames, cell.outputs[name]? = none → w.Free l c s name

/-- Some of the definitions of a cell are going to be removed or moved, one may be going to be handed
over to it, and definitions of some names are going to be added. -/
structure Fitting (ties : Prop) (l : Layout) (c : CellId) (R M : List (ScopeId × SlotId))
    (K : Option Promise) (s : ScopeId) (names : List String) (w : Workspace) : Prop where
  listed : c ∈ l.order
  own : ∀ {s : ScopeId} {x : SlotId}, (s, x) ∈ M → ∃ name, w.outputOf c s name = some x
  promise : ∀ k, K = some k →
    k.cell = c ∧ ∀ cell, w.cell? c = some cell → cell.outputs[k.name]? = none
  scope : names ≠ [] → l.scope c = some s
  housed : w.Housed l R M K
  lodged : ∀ c' ∈ l.order, w.Lodges c' (l.scope c')
  ranked : ties → w.Ranked l K
  free : ties → ∀ name ∈ names, (∀ x, w.outputOf c s name ≠ some x) → w.Free l c s name

/-! ### What is retained -/

section Retain

variable (h : w.Retains w')
include h

theorem Leaving.retain (hl : w.Leaving ties l c R) : w'.Leaving ties l c R where
  listed := hl.listed
  bare s name x hx := hl.bare s name x (h.outputOf hx)
  housed := hl.housed.retain h
  lodged c' hc' hne := (hl.lodged c' hc' hne).retain h
  ranked hties := (hl.ranked hties).retain h
  last := hl.last

theorem Entering.retain (hsame : ∀ cell', w'.cell? c = some cell' → w.cell? c = some cell')
    (he : w.Entering ties l c M) : w'.Entering ties l c M where
  listed := he.listed
  own hM := by
    obtain ⟨name, hx⟩ := he.own hM
    exact ⟨name, h.outputOf_of_held (he.housed.cell he.listed).1 hx⟩
  housed := he.housed.retain h
  lodged c' hc' := (he.lodged c' hc').retain h
  ranked hties := (he.ranked hties).retain h
  free hties cell hcell s hs name hname ho :=
    (he.free hties cell (hsame cell hcell) s hs name hname ho).retain h

theorem Fitting.retain (hf : w.Fitting ties l c R M K s names) :
    w'.Fitting ties l c R M K s names where
  listed := hf.listed
  own hM := by
    obtain ⟨name, hx⟩ := hf.own hM
    exact ⟨name, h.outputOf_of_held (hf.housed.cell hf.listed).1 hx⟩
  promise k hk := by
    refine ⟨(hf.promise k hk).1, fun cell' hcell' => ?_⟩
    obtain ⟨cell, hcell, hseat⟩ := h.cell hcell'
    have houtputs : cell'.outputs = cell.outputs := congrArg (·.2.2) hseat
    rw [houtputs]
    exact (hf.promise k hk).2 cell hcell
  scope := hf.scope
  housed := hf.housed.retain h
  lodged c' hc' := (hf.lodged c' hc').retain h
  ranked hties := (hf.ranked hties).retain h
  free hties name hname hnew := by
    refine Free.retain h (hf.free hties name hname fun x hx => hnew x ?_)
    exact h.outputOf_of_held (hf.housed.cell hf.listed).1 hx

end Retain

/-! ### The turn of a cell, phase by phase -/

section Phases

variable (hconsistent : w.tree.Consistent)

theorem Fitting.tidy (h : w.Fitting ties l c [] [] none s names) : w.Tidy ties l :=
  ⟨h.housed, h.lodged, h.ranked⟩

include hconsistent in
theorem Leaving.remove (h : w.Leaving ties l c ((s, x) :: R)) :
    ({ w with tree := (w.tree.removeDefinition s x).2 } : Workspace).Leaving ties l c R :=
  ⟨h.listed, h.bare, h.housed.remove hconsistent, h.lodged,
    fun hties => (h.ranked hties).remove hconsistent s x, h.last⟩

include hconsistent in
/-- A cell enters a scope. -/
theorem Leaving.enter (h : w.Leaving ties l c []) (hcell : w.cell? c = some cell) :
    (w.putCell c { cell with scope := l.scope c, suspended := true }).Entering ties l c [] := by
  have hbare : ∀ {s : ScopeId} {name : String} {x : SlotId},
      cell.outputs[name]? ≠ some ⟨s, x⟩ := fun ho =>
    h.bare _ _ _ ((outputOf_of_cell? hcell).mpr ho)
  obtain ⟨hheld, found, hfound, hposition⟩ := h.housed.cell h.listed
  rw [hcell] at hfound
  cases hfound
  have haround := Layout.Around.refl l c
  have hown : ∀ {s : ScopeId} {x : SlotId}, (s, x) ∈ ([] : List (ScopeId × SlotId)) →
      ∃ name, w.outputOf c s name = some x := by simp
  have hhoused : (w.putCell c
      { cell with scope := l.scope c, suspended := true }).Housed l [] [] none :=
    h.housed.reseat haround hown (fun ho => absurd ho hbare) h.listed hheld hposition
      (fun ho => absurd ho hbare) (fun ho => absurd ho hbare) (by simp [h.bare])
  refine ⟨h.listed, by simp, hhoused, fun c' hc' => ?_, fun hties => ?_,
    fun hties found hfound s hs name _ _ c' x hx hsame => ?_⟩
  · exact lodges_putCell (fun heq => by rw [heq]) (h.lodged c' hc')
  · exact (h.ranked hties).reseat haround hown (fun ho => absurd ho hbare) hconsistent h.housed
      fun ho => absurd ho hbare
  · -- another cell behind it is not in this scope
    obtain ⟨hc', found', hfound', hscope⟩ := hhoused.owner (.inl hx)
    refine h.last hties c' hc' hsame ?_
    rcases outputOf_putCell.mp hx with ⟨rfl, -⟩ | ⟨hne, hold⟩
    · rfl
    · obtain ⟨-, found, hfound, hfoundScope⟩ := h.housed.owner (.inl hold)
      rw [hs, ← h.lodged c' hc' hne found hfound, hfoundScope]

include hconsistent in
/-- The outputs of a cell are brought in step. -/
theorem Entering.synchronize (h : w.Entering ties l c M) (hcell : w.cell? c = some cell)
    (hs : l.scope c = some s) (inputs : Std.TreeMap String CellInput) :
    (w.putCell c (cell.fitted inputs)).Fitting ties l c (definitionsOf cell.dropped)
      (definitionsOf cell.kept) none s cell.expression.writtenNames := by
  have hself : (w.putCell c (cell.fitted inputs)).cell? c = some (cell.fitted inputs) :=
    lookup_insert_self _ _ _
  have hscope : cell.scope = some s := (h.lodged c h.listed cell hcell).trans hs
  have hin : ∀ {s' : ScopeId} {name : String} {x : SlotId},
      cell.outputs[name]? = some ⟨s', x⟩ → s' = s := by
    intro s' name x ho
    obtain ⟨-, found, hfound, heq⟩ := h.housed.owner (.inl ((outputOf_of_cell? hcell).mpr ho))
    rw [hcell] at hfound
    cases hfound
    rw [hscope] at heq
    exact (Option.some.inj heq).symm
  obtain ⟨hheld, found, hfound, hposition⟩ := h.housed.cell h.listed
  rw [hcell] at hfound
  cases hfound
  have haround := Layout.Around.refl l c
  have houtputs : ∀ {s : ScopeId} {name : String} {x : SlotId},
      (cell.fitted inputs).outputs[name]? = some ⟨s, x⟩ → w.outputOf c s name = some x := fun ho =>
    (outputOf_of_cell? hcell).mpr (Cell.outputs_fitted.mp ho).1
  have hhoused : (w.putCell c (cell.fitted inputs)).Housed l (definitionsOf cell.dropped)
      (definitionsOf cell.kept) none := by
    refine h.housed.reseat haround h.own houtputs h.listed hheld hposition
      (fun ho => hin (Cell.outputs_fitted.mp ho).1 ▸ hscope)
      (fun ho => Cell.mem_kept.mpr ⟨_, Cell.outputs_fitted.mp ho⟩) ?_
    intro s x
    rw [Cell.mem_dropped]
    refine exists_congr fun name => ?_
    rw [outputOf_of_cell? hcell, Ne, Cell.outputs_fitted]
    exact and_congr_right fun ho => by simp [ho]
  refine ⟨h.listed, fun hM => ?_, by simp, fun _ => hs, hhoused, fun c' hc' => ?_,
    fun hties => ?_, fun hties name hname hnew => ?_⟩
  · obtain ⟨name, ho⟩ := Cell.mem_kept.mp hM
    exact ⟨name, (outputOf_of_cell? hself).mpr (Cell.outputs_fitted.mpr ho)⟩
  · exact lodges_putCell (fun heq => heq ▸ hscope.trans hs.symm) fun _ => h.lodged c' hc'
  · exact (h.ranked hties).reseat haround h.own houtputs hconsistent h.housed fun _ _ => .inl rfl
  · -- a name that the cell does not have yet
    have hnone : cell.outputs[name]? = none := by
      rw [Option.eq_none_iff_forall_ne_some]
      rintro ⟨s', x⟩ ho
      cases hin ho
      exact hnew x ((outputOf_of_cell? hself).mpr (Cell.outputs_fitted.mpr ⟨ho, hname⟩))
    intro c' x hx
    refine h.free hties cell hcell s hs name hname hnone c' x ?_
    rcases outputOf_putCell.mp hx with ⟨rfl, ho⟩ | ⟨-, hold⟩
    · exact houtputs ho
    · exact hold

/-- A cell that enters no scope has no definitions. -/
theorem Entering.tidy (h : w.Entering ties l c M) (hs : l.scope c = none) : w.Tidy ties l := by
  have hnone : ∀ {s name x}, w.outputOf c s name ≠ some x := by
    intro s name x hx
    obtain ⟨-, cell, hcell, hscope⟩ := h.housed.owner (.inl hx)
    rw [h.lodged c h.listed cell hcell, hs] at hscope
    cases hscope
  have hM : M = [] := by
    rw [List.eq_nil_iff_forall_not_mem]
    rintro ⟨s, x⟩ hmem
    obtain ⟨name, hx⟩ := h.own hmem
    exact hnone hx
  exact ⟨hM ▸ h.housed, h.lodged, h.ranked⟩

include hconsistent in
theorem Fitting.remove {s' : ScopeId} (h : w.Fitting ties l c ((s', x) :: R) M K s names) :
    ({ w with tree := (w.tree.removeDefinition s' x).2 } : Workspace).Fitting ties l c R M K s names :=
  ⟨h.listed, h.own, h.promise, h.scope, h.housed.remove hconsistent, h.lodged,
    fun hties => (h.ranked hties).remove hconsistent s' x, h.free⟩

include hconsistent in
theorem Fitting.move {s' : ScopeId} (hl : l.Proper)
    (h : w.Fitting ties l c R ((s', x) :: M) K s names) :
    ({ w with tree := (w.tree.moveDefinition s' x (l.position c)).2 } : Workspace).Fitting
      ties l c R M K s names := by
  obtain ⟨name, hx⟩ := h.own List.mem_cons_self
  exact ⟨h.listed, fun hM => h.own (List.mem_cons_of_mem _ hM), h.promise, h.scope,
    h.housed.move hconsistent hx, h.lodged,
    fun hties => (h.ranked hties).move hconsistent hx h.housed hl fun k hk => (h.promise k hk).1,
    h.free⟩

/-- A cell has an output for the next name already, or there is no scope for it any more. -/
theorem Fitting.tail (h : w.Fitting ties l c R M K s (name :: names)) :
    w.Fitting ties l c R M K s names :=
  { h with
    scope := fun _ => h.scope (List.cons_ne_nil _ _)
    free := fun hties name hname => h.free hties name (List.mem_cons_of_mem _ hname) }

include hconsistent in
/-- A definition is added for the next name. -/
theorem Fitting.add {readers : List ReaderId} {tree : ScopeTree} (hconsistent' : tree.Consistent)
    (hl : l.Proper) (h : w.Fitting ties l c [] [] none s (name :: names))
    (hcell : w.cell? c = some cell) (hnew : cell.outputs[name]? = none)
    (hadd : w.tree.addDefinition s name (l.position c) = some (x, readers, tree)) :
    ({ w with tree } : Workspace).Fitting ties l c [] [] (some ⟨c, s, name, x⟩) s names := by
  have hscope : cell.scope = some s :=
    (h.lodged c h.listed cell hcell).trans (h.scope (List.cons_ne_nil _ _))
  refine ⟨h.listed, by simp, fun k hk => ?_, h.tail.scope,
    h.housed.add hconsistent hadd h.listed hcell hscope, h.lodged, fun hties => ?_, h.tail.free⟩
  · cases hk
    refine ⟨rfl, fun found hfound => ?_⟩
    cases hcell.symm.trans hfound
    exact hnew
  · refine (h.ranked hties).add hconsistent hadd hconsistent' h.housed hl h.listed hcell hscope ?_
    refine h.free hties name List.mem_cons_self fun y hy => ?_
    rw [outputOf_of_cell? hcell, hnew] at hy
    cases hy

include hconsistent in
/-- A definition is handed over. -/
theorem Fitting.keep {s' : ScopeId} (h : w.Fitting ties l c [] [] (some ⟨c, s', name, x⟩) s names)
    (hcell : w.cell? c = some cell) :
    (w.putCell c { cell with outputs := cell.outputs.insert name ⟨s', x⟩ }).Fitting
      ties l c [] [] none s names := by
  have hnew := (h.promise _ rfl).2 cell hcell
  refine ⟨h.listed, by simp, by simp, h.scope, h.housed.keep hcell hnew, fun c' hc' => ?_,
    fun hties => (h.ranked hties).keep hcell hnew hconsistent h.housed,
    fun hties n hn hfresh c' y hy hsame => ?_⟩
  · exact lodges_putCell (fun heq => heq ▸ h.lodged c h.listed cell hcell) fun _ => h.lodged c' hc'
  · have hhas := (has_keep hnew hcell).mp (.inl hy)
    have hkept : ∀ z, w.outputOf c s n ≠ some z := fun z hz =>
      hfresh z (has_none.mp ((has_keep hnew hcell).mpr (.inl hz)))
    rcases hhas with hout | hself
    · exact h.free hties n hn hkept c' y hout hsame
    · cases hself
      exact Nat.le_refl _

end Phases

/-! ### The tasks of a turn -/

def removals (R : List (ScopeId × SlotId)) : List Task := R.map fun d => .removeDefinition d.1 d.2

def moves (M : List (ScopeId × SlotId)) (p : Position) : List Task :=
  M.map fun d => .moveDefinition d.1 d.2 p

def handover (K : Option Promise) : List Task :=
  K.toList.map fun k => .cell k.cell (.keepOutput k.scope k.name k.slot)

def additions (c : CellId) (s : ScopeId) (names : List String) (p : Position) : List Task :=
  names.map fun name => .cell c (.addOutput s name p)

/-- A turn of some cell is in progress, with the rest of the agenda behind it. -/
inductive Busy (ties : Prop) (l : Layout) (rest : List Task) (w : Workspace) : Prop
  | resting (tasks : List Task) (tidy : w.Tidy ties l) (agenda : w.agenda = tasks ++ rest)
      (still : Still tasks)
  | leaving {c : CellId} {R : List (ScopeId × SlotId)} (tasks : List Task)
      (phase : w.Leaving ties l c R) (agenda : w.agenda = tasks ++ rest)
      (arranging : tasks.filter Task.arranges = removals R ++ [.cell c (.enter (l.scope c))])
  | entering {c : CellId} {M : List (ScopeId × SlotId)} (tasks : List Task)
      (phase : w.Entering ties l c M) (agenda : w.agenda = .cell c .synchronize :: (tasks ++ rest))
      (still : Still tasks)
  | fitting {c : CellId} {R M : List (ScopeId × SlotId)} {K : Option Promise} {s : ScopeId}
      {names : List String} (tasks : List Task)
      (phase : w.Fitting ties l c R M K s names) (agenda : w.agenda = tasks ++ rest)
      (arranging : tasks.filter Task.arranges =
        removals R ++ (moves M (l.position c) ++ (handover K ++ additions c s names (l.position c))))

section Busy

variable {rest tail tasks : List Task} {task : Task}

/-- When only the rest is left, the turn is over. -/
theorem Busy.tidy (h : w.Busy ties l rest) (hagenda : w.agenda = rest) : w.Tidy ties l := by
  have hnil : ∀ {tasks : List Task}, w.agenda = tasks ++ rest → tasks = [] := by
    intro tasks heq
    rwa [hagenda, List.self_eq_append_left] at heq
  cases h with
  | resting _ tidy => exact tidy
  | leaving tasks phase agenda arranging =>
    rw [hnil agenda] at arranging
    simp at arranging
  | entering tasks phase agenda still =>
    rw [← List.cons_append] at agenda
    cases hnil agenda
  | fitting tasks phase agenda arranging =>
    rw [hnil agenda] at arranging
    simp only [List.filter_nil, List.nil_eq, List.append_eq_nil_iff, removals, moves, handover,
      List.map_eq_nil_iff, Option.toList_eq_nil_iff] at arranging
    obtain ⟨rfl, rfl, rfl, -⟩ := arranging
    exact phase.tidy

theorem Busy.suffix (h : w.Busy ties l rest) : rest <:+ w.agenda := by
  cases h with
  | resting _ _ agenda _ | leaving _ _ agenda _ | fitting _ _ agenda _ =>
    rw [agenda]
    exact List.suffix_append _ _
  | entering _ _ agenda _ =>
    rw [agenda]
    exact (List.suffix_append _ _).trans (List.suffix_cons _ _)

theorem Busy.sweep (hconsistent : w.tree.Consistent) (h : w.Busy ties l rest) :
    w.sweep.Busy ties l rest := by
  have hretains := retains_sweep hconsistent
  cases h with
  | resting _ tidy agenda still =>
    exact .resting _ (tidy.retain hretains) ((sweep_agenda w).trans agenda) still
  | leaving _ phase agenda arranging =>
    exact .leaving _ (phase.retain hretains) ((sweep_agenda w).trans agenda) arranging
  | entering _ phase agenda still =>
    refine .entering _ (phase.retain hretains fun cell hcell => ?_) ((sweep_agenda w).trans agenda)
      still
    obtain ⟨cells, tree, heq, hcells⟩ := w.exists_sweep_eq
    rw [heq] at hcell
    exact hcells hcell
  | fitting _ phase agenda arranging =>
    exact .fitting _ (phase.retain hretains) ((sweep_agenda w).trans agenda) arranging

/-- The first task of a turn. -/
theorem exists_tail (hagenda : w.agenda = task :: tail) (htasks : w.agenda = tasks ++ rest)
    (hne : tasks ≠ []) : ∃ more, tasks = task :: more ∧ tail = more ++ rest := by
  rw [hagenda] at htasks
  cases tasks with
  | nil => exact absurd rfl hne
  | cons first more =>
    cases htasks
    exact ⟨more, rfl, rfl⟩

/-- A task that arranges nothing leaves the turn where it is. -/
theorem Busy.abide (h : w.Busy ties l rest) (hconsistent : w.tree.Consistent)
    (hagenda : w.agenda = task :: tail) (hne : w.agenda ≠ rest) (htask : task.arranges = false)
    (ha : ({ w with agenda := tail } : Workspace).Abides w') : w'.Busy ties l rest := by
  have hretains : w.Retains w' :=
    (retains_of_same hconsistent rfl rfl rfl rfl : w.Retains { w with agenda := tail }).trans
      ha.toRetains
  obtain ⟨added, hadded, hstill⟩ := ha.agenda
  have hskip : ∀ {tasks more : List Task}, tasks = task :: more →
      (added ++ more).filter Task.arranges = tasks.filter Task.arranges := by
    rintro tasks more rfl
    rw [List.filter_append, still_iff_filter.mp hstill, List.nil_append,
      List.filter_cons_of_neg (by simp [htask])]
  have hagenda' : ∀ more, tail = more ++ rest → w'.agenda = (added ++ more) ++ rest := by
    rintro more rfl
    rw [hadded, List.append_assoc]
  cases h with
  | resting _ tidy agenda still =>
    obtain ⟨more, heq, htail⟩ := exists_tail hagenda agenda (by rintro rfl; exact hne agenda)
    refine .resting _ (tidy.retain hretains) (hagenda' more htail) ?_
    rw [still_iff_filter, hskip heq, still_iff_filter.mp still]
  | leaving _ phase agenda arranging =>
    obtain ⟨more, heq, htail⟩ := exists_tail hagenda agenda (by rintro rfl; exact hne agenda)
    exact .leaving _ (phase.retain hretains) (hagenda' more htail) ((hskip heq).trans arranging)
  | entering _ phase agenda still =>
    rw [hagenda] at agenda
    cases agenda
    cases htask
  | fitting _ phase agenda arranging =>
    obtain ⟨more, heq, htail⟩ := exists_tail hagenda agenda (by rintro rfl; exact hne agenda)
    exact .fitting _ (phase.retain hretains) (hagenda' more htail) ((hskip heq).trans arranging)

/-- The first task of a turn is the first one that arranges definitions. -/
theorem tail_of_arranges {first : Task} {arranging more : List Task} (htask : task.arranges = true)
    (h : (task :: more).filter Task.arranges = first :: arranging) :
    task = first ∧ more.filter Task.arranges = arranging := by
  rw [List.filter_cons_of_pos htask] at h
  exact List.cons.inj h

/-- The tasks that bring the outputs of a cell in step. -/
theorem exists_synchronize_eq (w : Workspace) (c : CellId) (cell : Cell) (s : ScopeId) :
    ∃ inputs tasks, w.synchronize c cell s = (w.putCell c (cell.fitted inputs)).push tasks ∧
      tasks.filter Task.arranges = removals (definitionsOf cell.dropped) ++
        (moves (definitionsOf cell.kept) cell.position ++
          additions c s cell.expression.writtenNames cell.position) := by
  unfold Workspace.synchronize
  simp only [List.partition_eq_filter_filter]
  refine ⟨_, _, rfl, ?_⟩
  simp [removals, moves, additions, definitionsOf, Cell.dropped, Cell.kept, List.filter_map,
    Function.comp_def, Task.arranges, CellTask.arranges]

section Steps

variable (hconsistent : (({ w with agenda := tail } : Workspace).perform task).tree.Consistent)
  (htree : w.tree.Consistent)
  (htask : task.arranges = true)
include hconsistent htree htask

theorem Leaving.step {more : List Task} (h : w.Leaving ties l c R) (htail : tail = more ++ rest)
    (arranging : (task :: more).filter Task.arranges =
      removals R ++ [.cell c (.enter (l.scope c))]) :
    (({ w with agenda := tail } : Workspace).perform task).Busy ties l rest := by
  cases R with
  | nil =>
    obtain ⟨rfl, hmore⟩ := tail_of_arranges htask arranging
    obtain ⟨hheld, cell, hcell, -⟩ := h.housed.cell h.listed
    rw [perform_cell (w := { w with agenda := tail }) hcell] at hconsistent ⊢
    refine .entering (.cell c (.endBatch cell.suspended true) :: more)
      ((h.enter htree hcell).retain ?_ ?_) ?_ ?_
    · exact retains_of_same hconsistent rfl rfl rfl rfl
    · exact fun _ hcell' => hcell'
    · rw [htail]
      rfl
    · exact still_cons.mpr ⟨rfl, still_iff_filter.mpr hmore⟩
  | cons d R =>
    obtain ⟨rfl, hmore⟩ := tail_of_arranges htask arranging
    refine .leaving (noticeTasks d.1 (w.tree.removeDefinition d.1 d.2).1 ++ more)
      ((h.remove htree).retain ?_) ?_ hmore
    · exact retains_of_same hconsistent rfl rfl rfl rfl
    · rw [htail, List.append_assoc]
      rfl

theorem Entering.step {more : List Task} (h : w.Entering ties l c M)
    (heq : task = .cell c .synchronize) (htail : tail = more ++ rest) (hstill : Still more) :
    (({ w with agenda := tail } : Workspace).perform task).Busy ties l rest := by
  subst heq
  obtain ⟨hheld, cell, hcell, hposition⟩ := h.housed.cell h.listed
  have hscope := h.lodged c h.listed cell hcell
  rw [perform_cell (w := { w with agenda := tail }) hcell] at hconsistent ⊢
  unfold performCell at hconsistent ⊢
  cases hs : l.scope c with
  | none =>
    simp only [hscope, hs] at hconsistent ⊢
    refine .resting more ((h.tidy hs).retain ?_) htail hstill
    exact retains_of_same hconsistent rfl rfl rfl rfl
  | some s =>
    simp only [hscope, hs] at hconsistent ⊢
    obtain ⟨inputs, tasks, heq, htasks⟩ :=
      ({ w with agenda := tail } : Workspace).exists_synchronize_eq c cell s
    rw [heq] at hconsistent ⊢
    refine .fitting (tasks ++ more) ((h.synchronize htree hcell hs inputs).retain ?_) ?_ ?_
    · exact retains_of_same hconsistent rfl rfl rfl rfl
    · rw [push, htail, List.append_assoc]
      rfl
    · rw [List.filter_append, htasks, still_iff_filter.mp hstill, List.append_nil, hposition]
      rfl

theorem Fitting.step {more : List Task} (hl : l.Proper) (h : w.Fitting ties l c R M K s names)
    (htail : tail = more ++ rest)
    (arranging : (task :: more).filter Task.arranges =
      removals R ++ (moves M (l.position c) ++ (handover K ++ additions c s names (l.position c)))) :
    (({ w with agenda := tail } : Workspace).perform task).Busy ties l rest := by
  cases R with
  | cons d R =>
    obtain ⟨rfl, hmore⟩ := tail_of_arranges htask arranging
    refine .fitting (noticeTasks d.1 (w.tree.removeDefinition d.1 d.2).1 ++ more)
      ((h.remove htree).retain ?_) ?_ hmore
    · exact retains_of_same hconsistent rfl rfl rfl rfl
    · rw [htail, List.append_assoc]
      rfl
  | nil =>
  cases M with
  | cons d M =>
    obtain ⟨rfl, hmore⟩ := tail_of_arranges htask arranging
    refine .fitting (R := [])
      (noticeTasks d.1 (w.tree.moveDefinition d.1 d.2 (l.position c)).1 ++ more)
      ((h.move htree hl).retain ?_) ?_ hmore
    · exact retains_of_same hconsistent rfl rfl rfl rfl
    · rw [htail, List.append_assoc]
      rfl
  | nil =>
  cases K with
  | some k =>
    obtain ⟨rfl, hmore⟩ := tail_of_arranges htask arranging
    obtain ⟨c', s', name, x⟩ := k
    obtain ⟨rfl, -⟩ := h.promise _ rfl
    obtain ⟨-, cell, hcell, -⟩ := h.housed.cell h.listed
    rw [perform_cell (w := { w with agenda := tail }) hcell] at hconsistent ⊢
    refine .fitting (R := []) (M := []) (K := none) more
      ((h.keep htree hcell).retain ?_) htail hmore
    exact retains_of_same hconsistent rfl rfl rfl rfl
  | none =>
  cases names with
  | nil =>
    have hfirst : task ∈ (task :: more).filter Task.arranges :=
      List.mem_filter.mpr ⟨List.mem_cons_self, htask⟩
    rw [arranging] at hfirst
    cases hfirst
  | cons name names =>
    obtain ⟨rfl, hmore⟩ := tail_of_arranges htask arranging
    obtain ⟨-, cell, hcell, -⟩ := h.housed.cell h.listed
    have hskip : ({ w with agenda := tail } : Workspace).Busy ties l rest := by
      refine .fitting (R := []) (M := []) (K := none) more (h.tail.retain ?_) htail hmore
      exact (retains_of_same htree rfl rfl rfl rfl : w.Retains { w with agenda := tail })
    rw [perform_cell (w := { w with agenda := tail }) hcell] at hconsistent ⊢
    unfold performCell at hconsistent ⊢
    simp only at hconsistent ⊢
    split
    · exact hskip
    rename_i hcontains
    rw [if_neg hcontains] at hconsistent
    split
    · exact hskip
    rename_i x readers tree hadd
    simp only [hadd] at hconsistent
    have hnew : cell.outputs[name]? = none := by
      simpa using hcontains
    refine .fitting (R := []) (M := []) (K := some ⟨c, s, name, x⟩)
      ([.notifyReaders s readers, .cell c (.keepOutput s name x)] ++ more)
      ((h.add htree hconsistent hl hcell hnew hadd).retain ?_) ?_ ?_
    · exact retains_of_same hconsistent rfl rfl rfl rfl
    · rw [push, htail, List.append_assoc]
    · show _ :: more.filter Task.arranges = _
      rw [hmore]
      rfl

end Steps

/-- Every step goes on with the turn. -/
theorem Busy.step {held : List ScopeId} {t : ScopeTree} (hl : l.Proper) (h : w.Busy ties l rest)
    (hw : w.Tends held t) (hagenda : w.agenda = task :: tail) (hne : w.agenda ≠ rest) :
    (({ w with agenda := tail } : Workspace).perform task).sweep.Busy ties l rest := by
  have htree : w.tree.Consistent := hw.ready.tied.allConsistent
  have hconsistent : (({ w with agenda := tail } : Workspace).perform task).tree.Consistent :=
    (hw.ready.perform hagenda).tied.allConsistent
  refine Busy.sweep hconsistent ?_
  by_cases htask : task.arranges = true
  · cases h with
    | resting _ tidy agenda still =>
      obtain ⟨more, rfl, htail⟩ := exists_tail hagenda agenda (by rintro rfl; exact hne agenda)
      rw [still task List.mem_cons_self] at htask
      cases htask
    | leaving _ phase agenda arranging =>
      obtain ⟨more, rfl, htail⟩ := exists_tail hagenda agenda (by rintro rfl; exact hne agenda)
      exact phase.step hconsistent htree htask htail arranging
    | entering _ phase agenda still =>
      obtain ⟨rfl, htail⟩ := List.cons.inj (hagenda.symm.trans agenda)
      exact phase.step hconsistent htree htask rfl htail still
    | fitting _ phase agenda arranging =>
      obtain ⟨more, rfl, htail⟩ := exists_tail hagenda agenda (by rintro rfl; exact hne agenda)
      exact phase.step hconsistent htree htask hl htail arranging
  · refine h.abide htree hagenda hne (by simpa using htask) ?_
    refine perform_abides (w := { w with agenda := tail })
      ⟨hw.closed.subscriptions, hw.closed.answering⟩ htree (by simpa using htask) ?_
    rintro op rfl
    exact hw.operations op (by rw [hagenda]; exact List.mem_cons_self)

end Busy

end Workspace

end MathCanvas
