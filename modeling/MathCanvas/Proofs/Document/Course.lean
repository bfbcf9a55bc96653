import MathCanvas.Proofs.Document.Busy

/-!
# The course of an edit

An edit performs a few operations one after the other. Each begins a turn of its cell
(`Workspace.Leads`), at the end of which the workspace is tidy for another layout, so that the edit as
a whole takes the document from one layout to another through those between its operations
(`Workspace.Course`, `Document.tidy_run`).
-/

namespace MathCanvas

namespace Layout

variable {l : Layout} {c : CellId} {scope : Option ScopeId}

/-- The layout with a cell in another scope. -/
def withScope (l : Layout) (c : CellId) (scope : Option ScopeId) : Layout :=
  { l with scope := Function.update l.scope c scope }

theorem around_withScope : l.Around c (l.withScope c scope) :=
  ⟨rfl, fun _ _ => rfl, fun _ hne => Function.update_of_ne hne _ _⟩

theorem withScope_self (h : l.scope c = scope) : l.withScope c scope = l := by
  rw [withScope, ← h, Function.update_eq_self]

theorem scope_withScope : (l.withScope c scope).scope c = scope := Function.update_self ..

theorem Proper.withScope (h : l.Proper) : (l.withScope c scope).Proper := ⟨h.nodup, h.sorted⟩

end Layout

namespace Workspace

variable {w w' : Workspace} {ties : Prop} {l l' : Layout} {c : CellId} {cell : Cell}
  {rest : List Task} {op : Op} {R : List (ScopeId × SlotId)}

theorem Housed.of_same (h : w.Housed l R [] none) (hcells : w'.cells = w.cells)
    (htree : w'.tree = w.tree) (hheld : ∀ c ∈ l.order, c ∈ w.heldCells → c ∈ w'.heldCells) :
    w'.Housed l R [] none := by
  have hcell : ∀ c, w'.cell? c = w.cell? c := fun c => by rw [cell?, hcells, cell?]
  have hhas : ∀ {c s name x}, w'.Has none c s name x ↔ w.Has none c s name x := by
    intro c s name x
    rw [has_none, has_none, outputOf, outputOf, hcell]
  refine ⟨fun hc => ?_, fun hx => ?_, fun hx hx' => h.unique (hhas.mp hx) (hhas.mp hx'), fun hp => ?_,
    fun hx hs => ?_, fun hR hx => h.unowned hR (hhas.mp hx)⟩
  · rw [hcell]
    exact ⟨hheld _ hc (h.cell hc).1, (h.cell hc).2⟩
  · rw [hcell]
    exact h.owner (hhas.mp hx)
  · rw [htree] at hp
    exact (h.owned hp).imp_left (Exists.imp fun c => hhas.mpr)
  · rw [htree] at hs ⊢
    exact h.placed (hhas.mp hx) hs

section Begin

variable (hconsistent : w.tree.Consistent)
include hconsistent

/-- A cell gives up all that it has, and is going to enter another scope. -/
theorem Tidy.leaving (h : w.Tidy ties l) (hc : c ∈ l.order) (hcell : w.cell? c = some cell)
    {scope : Option ScopeId} (hlast : ties → (l.withScope c scope).LastInScope c) :
    (w.putCell c cell.unregistered).Leaving ties (l.withScope c scope) c
      (definitionsOf cell.outputs.toList) := by
  have hnone : ∀ {s : ScopeId} {name : String} {x : SlotId},
      cell.unregistered.outputs[name]? ≠ some ⟨s, x⟩ := by
    simp [Cell.unregistered]
  obtain ⟨hheld, found, hfound, hposition⟩ := h.housed.cell hc
  cases hcell.symm.trans hfound
  have hown : ∀ {s : ScopeId} {x : SlotId}, (s, x) ∈ ([] : List (ScopeId × SlotId)) →
      ∃ name, w.outputOf c s name = some x := by simp
  refine ⟨hc, fun s name x hx => ?_, ?_, fun c' hc' hne => ?_, fun hties => ?_, hlast⟩
  · rcases outputOf_putCell.mp hx with ⟨-, ho⟩ | ⟨hne, -⟩
    · exact hnone ho
    · exact hne rfl
  · refine h.housed.reseat Layout.around_withScope hown (fun ho => absurd ho hnone) hc hheld hposition
      (fun ho => absurd ho hnone) (fun ho => absurd ho hnone) ?_
    intro s x
    rw [mem_definitionsOf]
    refine exists_congr fun name => ?_
    rw [Std.TreeMap.mem_toList_iff_getElem?_eq_some, outputOf_of_cell? hcell]
    simp [hnone]
  · rw [Layout.around_withScope.scope c' hne]
    exact lodges_putCell (fun heq => absurd heq hne) fun _ => h.lodged c' hc'
  · exact (h.ranked hties).reseat Layout.around_withScope hown (fun ho => absurd ho hnone) hconsistent
      h.housed fun ho => absurd ho hnone

theorem Tidy.setScope (h : w.Tidy ties l) (hc : c ∈ l.order) (hcell : w.cell? c = some cell)
    {scope : Option ScopeId}
    (hlast : ties → l.scope c ≠ scope → (l.withScope c scope).LastInScope c) :
    (w.setScope c cell scope).Busy ties (l.withScope c scope) w.agenda := by
  have hscope := h.lodged c hc cell hcell
  unfold Workspace.setScope
  split
  · rename_i heq
    rw [Layout.withScope_self (hscope.symm.trans heq)]
    exact .resting [] h rfl still_nil
  · rename_i hne
    have hlast' := fun hties => hlast hties (hscope ▸ hne)
    refine .leaving _ ((h.leaving hconsistent hc hcell hlast').retain ?_) rfl ?_
    · exact retains_of_same hconsistent rfl rfl rfl rfl
    · rw [Layout.scope_withScope]
      simp [removals, definitionsOf, cancelTasks, values_eq_map, List.filter_map, Function.comp_def,
        Task.arranges]
      rfl

end Begin

section Operate

variable (hconsistent : w.tree.Consistent) (h : w.Tidy ties l)
include hconsistent h

theorem Tidy.operate_still (hop : op.InDocument) (hstill : op.arranges = false) :
    (w.operate op).2.Busy ties l w.agenda := by
  have habides := Abides.operate hconsistent hop hstill
  obtain ⟨tasks, hagenda, htasks⟩ := habides.agenda
  exact .resting tasks (h.retain habides.toRetains) hagenda htasks

theorem Tidy.operate_setScope (hc : c ∈ l.order) {scope : Option ScopeId}
    (hscope : ∀ s, scope = some s → s ∈ w.heldScopes)
    (hlast : ties → l.scope c ≠ scope → (l.withScope c scope).LastInScope c) :
    (w.operate (.setScope c scope)).2.Busy ties (l.withScope c scope) w.agenda := by
  obtain ⟨hheld, cell, hcell, -⟩ := h.housed.cell hc
  have hall : scope.all w.heldScopes.contains = true := by
    cases scope with
    | none => rfl
    | some s => simpa using hscope s rfl
  unfold operate
  simp only [onHeldCell_of_held hheld hcell, hall, if_true]
  exact h.setScope hconsistent hc hcell hlast

/-- A cell gets another expression. If ties are kept, no cell behind it at its position has a
definition of a name that it is going to define. -/
theorem Tidy.operate_setExpression (hc : c ∈ l.order) {e : Expr}
    (hfree : ties → ∀ cell, w.cell? c = some cell → ∀ s, l.scope c = some s →
      ∀ name ∈ e.writtenNames, cell.outputs[name]? = none → w.Free l c s name) :
    (w.operate (.setExpression c e)).2.Busy ties l w.agenda := by
  obtain ⟨hheld, cell, hcell, -⟩ := h.housed.cell hc
  unfold operate
  simp only [onHeldCell_of_held hheld hcell]
  set changed : Cell := { cell with expression := e, suspended := true }
  have hretains : w.Retains (w.putCell c changed) :=
    ((Abides.refl hconsistent).putCell hcell rfl : w.Abides (w.putCell c changed)).toRetains
  have htidy := h.retain hretains
  have hentering : (w.putCell c changed).Entering ties l c [] := by
    refine ⟨hc, by simp, htidy.housed, htidy.lodged, htidy.ranked,
      fun hties found hfound s hs name hname hnone => ?_⟩
    have hself : (w.putCell c changed).cell? c = some changed := lookup_insert_self _ _ _
    cases hself.symm.trans hfound
    exact (hfree hties cell hcell s hs name hname hnone).retain hretains
  refine .entering [.cell c (.endBatch cell.suspended true), .releaseCell c]
    (hentering.retain ?_ ?_) rfl (by simp [Task.arranges, CellTask.arranges])
  · exact retains_of_same hconsistent rfl rfl rfl rfl
  · exact fun _ hcell' => hcell'

/-- A cell gets a position elsewhere, and comes last there. -/
theorem Tidy.operate_setPosition (hc : c ∈ l.order) (haround : l.Around c l') (hc' : c ∈ l'.order)
    {p : Position} (hthere : l'.position c = p) (hscope : l'.scope c = l.scope c)
    (hmoved : (l.position c).same p = false) (hlast : l'.Last c) :
    (w.operate (.setPosition c p)).2.Busy ties l' w.agenda := by
  subst hthere
  obtain ⟨hheld, cell, hcell, hposition⟩ := h.housed.cell hc
  unfold operate
  simp only [onHeldCell_of_held hheld hcell, hposition, hmoved]
  set changed : Cell := { cell with position := l'.position c, suspended := true } with hchanged
  have houtputs : ∀ {s : ScopeId} {name : String} {x : SlotId},
      changed.outputs[name]? = some ⟨s, x⟩ → w.outputOf c s name = some x := fun ho =>
    (outputOf_of_cell? hcell).mpr ho
  have hown : ∀ {s : ScopeId} {x : SlotId}, (s, x) ∈ ([] : List (ScopeId × SlotId)) →
      ∃ name, w.outputOf c s name = some x := by simp
  have hself : (w.putCell c changed).cell? c = some changed := lookup_insert_self _ _ _
  have hmoving : ∀ {s : ScopeId} {x : SlotId}, (s, x) ∈ definitionsOf cell.outputs.toList ↔
      ∃ name, w.outputOf c s name = some x := by
    intro s x
    rw [mem_definitionsOf]
    refine exists_congr fun name => ?_
    rw [Std.TreeMap.mem_toList_iff_getElem?_eq_some, outputOf_of_cell? hcell]
  have hhoused : (w.putCell c changed).Housed l' [] (definitionsOf cell.outputs.toList) none := by
    refine h.housed.reseat haround hown houtputs hc' hheld rfl (fun ho => ?_)
      (fun ho => hmoving.mpr ⟨_, houtputs ho⟩) ?_
    · obtain ⟨-, found, hfound, heq⟩ := h.housed.owner (.inl (houtputs ho))
      cases hcell.symm.trans hfound
      exact heq
    · simp only [List.not_mem_nil, false_iff, not_exists, not_and, not_not]
      exact fun name hx => (outputOf_of_cell? hcell).mp hx
  have hentering : (w.putCell c changed).Entering ties l' c (definitionsOf cell.outputs.toList) := by
    refine ⟨hc', fun hM => ?_, hhoused, fun c₁ hc₁ => ?_, fun hties => ?_,
      fun hties found hfound s hs name hname hnone c₁ x hx hsame => ?_⟩
    · obtain ⟨name, hx⟩ := hmoving.mp hM
      exact ⟨name, (outputOf_of_cell? hself).mpr ((outputOf_of_cell? hcell).mp hx)⟩
    · refine lodges_putCell (fun heq => ?_) fun hne => ?_
      · rw [heq, hscope]
        exact h.lodged c hc cell hcell
      · rw [haround.scope c₁ hne]
        exact h.lodged c₁ ((haround.mem_iff hne).mp hc₁)
    · refine (h.ranked hties).reseat haround hown houtputs hconsistent h.housed fun ho hp => ?_
      have hat := h.housed.same_position hconsistent (houtputs ho) hp
      refine .inr ⟨?_, hlast⟩
      by_contra hsame
      rw [Bool.not_eq_false] at hsame
      rw [Position.same_trans (Position.same_symm hat) hsame] at hmoved
      cases hmoved
    · exact hlast c₁ (hhoused.owner (.inl hx)).1 hsame
  refine .entering [.cell c (.endBatch cell.suspended false), .releaseCell c]
    (hentering.retain ?_ ?_) rfl (by simp [Task.arranges, CellTask.arranges])
  · exact retains_of_same hconsistent rfl rfl rfl rfl
  · exact fun _ hcell' => hcell'

omit hconsistent in
/-- A cell gets a position at the same place, so that it keeps the one that it has, but another place
in the order. -/
theorem Tidy.operate_setPosition_of_same {p : Position} (hc : c ∈ l.order) (haround : l.Around c l')
    (hc' : c ∈ l'.order) (hposition : l'.position = l.position) (hscope : l'.scope = l.scope)
    (hsame : (l.position c).same p = true) (hranked : ties → w.Ranked l' none) :
    (w.operate (.setPosition c p)).2.Busy ties l' w.agenda := by
  obtain ⟨hheld, cell, hcell, hat⟩ := h.housed.cell hc
  have hmem : ∀ c₁, c₁ ∈ l'.order ↔ c₁ ∈ l.order := by
    intro c₁
    by_cases hne : c₁ = c
    · simp [hne, hc, hc']
    · exact haround.mem_iff hne
  unfold operate
  simp only [onHeldCell_of_held hheld hcell, hat, hsame, if_true]
  refine .resting [] ⟨⟨fun hc₁ => ?_, fun hx => ?_, h.housed.unique, h.housed.owned,
    fun hx hs => ?_, h.housed.unowned⟩, fun c₁ hc₁ => ?_, hranked⟩ rfl still_nil
  · rw [hposition]
    exact h.housed.cell ((hmem _).mp hc₁)
  · rw [hmem]
    exact h.housed.owner hx
  · rw [hposition]
    exact h.housed.placed hx hs
  · rw [hscope]
    exact h.lodged c₁ ((hmem c₁).mp hc₁)

/-- A cell is made, and comes last at its position. -/
theorem Tidy.operate_newCell {p : Position} {e : Expr} {s : ScopeId} {automatic : Bool}
    (hnext : w.nextCell = c) (hnew : c ∉ l.order) (haround : l.Around c l') (hlisted : c ∈ l'.order)
    (hposition : l'.position c = p) (hscope : l'.scope c = some s) (hs : s ∈ w.heldScopes)
    (hlast : l'.Last c) :
    (w.operate (.newCell p e (some s) automatic)).2.Busy ties l' w.agenda := by
  subst hposition
  set made : Cell := { expression := e, position := l'.position c, automatic } with hmade
  set extended : Workspace := { w with nextCell := c + 1, heldCells := w.heldCells ++ [c] }
  have hnone : ∀ {s : ScopeId} {name : String} {x : SlotId}, made.outputs[name]? ≠ some ⟨s, x⟩ := by
    simp [hmade]
  have hfresh : ∀ {s name x}, w.outputOf c s name ≠ some x := fun hx =>
    hnew (h.housed.owner (.inl hx)).1
  have hhoused : extended.Housed l [] [] none :=
    h.housed.of_same rfl rfl fun c₁ _ hheld => List.mem_append_left _ hheld
  have haround' : l.Around c (l'.withScope c none) :=
    ⟨haround.order, haround.position, fun c₁ hne =>
      (Function.update_of_ne hne _ _).trans (haround.scope c₁ hne)⟩
  have hown : ∀ {s : ScopeId} {x : SlotId}, (s, x) ∈ ([] : List (ScopeId × SlotId)) →
      ∃ name, extended.outputOf c s name = some x := by simp
  have htidy : (extended.putCell c made).Tidy ties (l'.withScope c none) := by
    refine ⟨?_, fun c₁ hc₁ => lodges_putCell (fun heq => ?_) fun hne => ?_, fun hties => ?_⟩
    · refine hhoused.reseat haround' hown (fun ho => absurd ho hnone) hlisted ?_ rfl
        (fun ho => absurd ho hnone) (fun ho => absurd ho hnone) ?_
      · exact List.mem_append_right _ (List.mem_singleton.mpr rfl)
      · intro s x
        simp only [List.not_mem_nil, false_iff, not_exists]
        exact fun name ⟨hx, _⟩ => hfresh hx
    · rw [heq, Layout.scope_withScope]
    · rw [haround'.scope c₁ hne]
      exact h.lodged c₁ ((haround'.mem_iff hne).mp hc₁)
    · have hranked : extended.Ranked l none := ⟨(h.ranked hties).inRank, (h.ranked hties).free⟩
      exact hranked.reseat haround' hown (fun ho => absurd ho hnone) hconsistent hhoused
        fun ho => absurd ho hnone
  have hself : (extended.putCell c made).cell? c = some made := lookup_insert_self _ _ _
  have hback : (l'.withScope c none).withScope c (some s) = l' := by
    rw [Layout.withScope, Layout.withScope, Function.update_idem, ← hscope, Function.update_eq_self]
  have hbusy : ((extended.putCell c made).setScope c made (some s)).Busy ties
      ((l'.withScope c none).withScope c (some s)) w.agenda := by
    refine Tidy.setScope (w := extended.putCell c made) hconsistent htidy hlisted hself fun _ _ => ?_
    rw [hback]
    exact hlast.lastInScope
  rw [hback] at hbusy
  have hheld : (some s).filter w.heldScopes.contains = some s := by
    rw [Option.filter_some, if_pos (by simpa using hs)]
  unfold operate
  simp only [hheld, hnext]
  exact hbusy

/-- The client lets go of a cell that is in no scope. -/
theorem Tidy.operate_dropCell (hc : c ∈ l.order) (haround : l.Around c l') (hgone : c ∉ l'.order)
    (hscope : l.scope c = none) : (w.operate (.dropCell c)).2.Busy ties l' w.agenda := by
  have hnone : ∀ {s name x}, w.outputOf c s name ≠ some x := by
    intro s name x hx
    obtain ⟨-, cell, hcell, heq⟩ := h.housed.owner (.inl hx)
    rw [h.lodged c hc cell hcell, hscope] at heq
    cases heq
  have hne : ∀ {c' s name x}, w.outputOf c' s name = some x → c' ≠ c := by
    rintro c' s name x hx rfl
    exact hnone hx
  have hstays : ∀ {c'}, c' ∈ l'.order → c' ≠ c := by
    rintro c' hc' rfl
    exact hgone hc'
  refine .resting [] ⟨⟨fun {c'} hc' => ?_, fun {c' s name x} hx => ?_, h.housed.unique,
    h.housed.owned, fun {c' s name x} hx hs => ?_, h.housed.unowned⟩, fun c' hc' => ?_,
    fun hties => ⟨fun s name => ?_, fun {c' s name x p} hx hp hsame => ?_⟩⟩ rfl still_nil
  · obtain ⟨hheld, hfound⟩ := h.housed.cell ((haround.mem_iff (hstays hc')).mp hc')
    rw [haround.position c' (hstays hc')]
    exact ⟨List.mem_filter.mpr ⟨hheld, by simpa using hstays hc'⟩, hfound⟩
  · rw [haround.mem_iff (hne (has_none.mp hx))]
    exact h.housed.owner hx
  · rw [haround.position c' (hne (has_none.mp hx))]
    exact h.housed.placed hx hs
  · rw [haround.scope c' (hstays hc')]
    exact h.lodged c' ((haround.mem_iff (hstays hc')).mp hc')
  · refine ((h.ranked hties).inRank s name).imp fun hab c₁ c₂ h₁ h₂ ha hb => ?_
    have hne₁ := hne (has_none.mp h₁)
    have hne₂ := hne (has_none.mp h₂)
    rw [haround.position c₁ hne₁] at ha
    rw [haround.position c₂ hne₂] at hb
    exact haround.rank_le hne₁ hne₂ (h.housed.owner h₁).1 (hab c₁ c₂ h₁ h₂ ha hb)
  · rw [haround.position c' (hne hx)] at hsame
    rw [h.housed.same_position hconsistent hx hp] at hsame
    cases hsame

end Operate

/-- Operations take a workspace from one layout to a final one. -/
inductive Course (ties : Prop) (held : List ScopeId) (final : Layout) : List Op → Layout → Prop
  | done : Course ties held final [] final
  | next {op : Op} {ops : List Op} {l l' : Layout} (proper : l'.Proper)
      (leads : ∀ w : Workspace, w.tree.Consistent → w.heldScopes = held → w.Tidy ties l →
        (w.operate op).2.Busy ties l' w.agenda)
      (rest : Course ties held final ops l') : Course ties held final (op :: ops) l

/-- An edit in progress: its first operation is called on a workspace that is as given, or a turn is
under way. -/
inductive Underway (ties : Prop) (held : List ScopeId) (final : Layout) (before : Workspace)
    (l' : Layout) (op : Op) (w : Workspace) : Prop
  | called {ops : List Op} (agenda : w.agenda = .operate op :: ops.map .operate)
      (retains : before.Retains w) (course : Course ties held final ops l')
  | busy {ops : List Op} {l : Layout} (proper : l.Proper) (turn : w.Busy ties l (ops.map .operate))
      (course : Course ties held final ops l)

theorem Underway.step {held : List ScopeId} {t : ScopeTree} {final : Layout} {before : Workspace}
    {task : Task} (h : Underway ties held final before l' op w) (hw : w.Tends held t)
    (hl' : l'.Proper)
    (hfirst : ∀ w : Workspace, before.Retains w → w.heldScopes = held →
      (w.operate op).2.Busy ties l' w.agenda)
    (hagenda : w.agenda = task :: rest) :
    Underway ties held final before l' op
      (({ w with agenda := rest } : Workspace).perform task).sweep := by
  have htree : w.tree.Consistent := hw.ready.tied.allConsistent
  have hconsistent : (({ w with agenda := rest } : Workspace).perform task).tree.Consistent :=
    (hw.ready.perform hagenda).tied.allConsistent
  have hpop : w.Retains { w with agenda := rest } :=
    retains_of_same htree rfl rfl rfl rfl
  cases h with
  | called agenda retains course =>
    obtain ⟨rfl, rfl⟩ := List.cons.inj (hagenda.symm.trans agenda)
    exact .busy hl' ((hfirst _ (retains.trans hpop) hw.heldScopes).sweep hconsistent) course
  | @busy ops l proper turn course =>
    by_cases hover : w.agenda = ops.map .operate
    · -- the turn is over, and the next operation begins another one
      have htidy := (turn.tidy hover).retain hpop
      cases course with
      | done =>
        rw [hagenda] at hover
        cases hover
      | @next op' more _ _ proper' leads course =>
        obtain ⟨rfl, rfl⟩ := List.cons.inj (hagenda.symm.trans hover)
        have hturn := leads { w with agenda := more.map .operate } htree hw.heldScopes htidy
        exact .busy proper' (hturn.sweep hconsistent) course
    · exact .busy proper (turn.step proper hw hagenda hover) course

/-- When nothing is left to be done, the final layout is reached. -/
theorem Underway.tidy {held : List ScopeId} {final : Layout} {before : Workspace}
    (h : Underway ties held final before l' op w) (hquiet : w.agenda = []) : w.Tidy ties final := by
  cases h with
  | called agenda =>
    rw [hquiet] at agenda
    cases agenda
  | busy _ turn course =>
    cases course with
    | done => exact turn.tidy hquiet
    | next => exact absurd turn.suffix (by simp [hquiet])

theorem Underway.settle {held : List ScopeId} {t : ScopeTree} {final : Layout} {before : Workspace}
    (h : Underway ties held final before l' op w) (hw : w.Tends held t) (hl' : l'.Proper)
    (hfirst : ∀ w : Workspace, before.Retains w → w.heldScopes = held →
      (w.operate op).2.Busy ties l' w.agenda)
    {limit : Nat} (hdone : (w.settle limit).agenda = []) : (w.settle limit).Tidy ties final := by
  have hkeeps := settle_keeps
    (P := fun w => w.Tends held t ∧ Underway ties held final before l' op w)
    (fun _ _ _ hw hagenda => ⟨hw.1.step hagenda, hw.2.step hw.1 hl' hfirst hagenda⟩) limit ⟨hw, h⟩
  exact hkeeps.2.tidy hdone

theorem Course.of_still {held : List ScopeId} {ops : List Op} (hl : l.Proper)
    (hops : ∀ op ∈ ops, op.InDocument ∧ op.arranges = false) : Course ties held l ops l := by
  induction ops with
  | nil => exact .done
  | cons op ops ih =>
    obtain ⟨hop, hmore⟩ := List.forall_mem_cons.mp hops
    exact .next hl (fun w hconsistent _ htidy => htidy.operate_still hconsistent hop.1 hop.2) (ih hmore)

end Workspace

namespace Document

open Workspace

variable {d : Document} {held : List ScopeId} {t : ScopeTree} {ties : Prop} {l l' final : Layout}
  {op : Op} {ops : List Op}

theorem retains_call (h : d.workspace.tree.Consistent) (ops : List Op) :
    d.workspace.Retains
      (({ d.workspace with history := [] } : Workspace).push (ops.map .operate)).sweep := by
  have hpushed : d.workspace.Retains
      (({ d.workspace with history := [] } : Workspace).push (ops.map .operate)) :=
    retains_of_same h rfl rfl rfl rfl
  exact hpushed.trans (retains_sweep h)

section Edit

variable (h : d.workspace.Tends held t) (hquiet : d.workspace.agenda = [])
include h hquiet

/-- An edit whose first operation leads from the document to some layout, and whose other operations
lead on to a final one. -/
theorem tidy_run (hops : ∀ op' ∈ op :: ops, op'.InDocument) (hl' : l'.Proper)
    (hfirst : ∀ w : Workspace, d.workspace.Retains w → w.heldScopes = held →
      (w.operate op).2.Busy ties l' w.agenda)
    (hcourse : Course ties held final ops l') (hdone : (d.run (op :: ops)).workspace.agenda = []) :
    (d.run (op :: ops)).workspace.Tidy ties final := by
  have hcall := h.call hquiet hops
  have htree : d.workspace.tree.Consistent := h.ready.tied.allConsistent
  have hretains := retains_call htree (op :: ops)
  refine Underway.settle (.called ?_ hretains hcourse) hcall.sweep hl' hfirst hdone
  rw [sweep_agenda, push, hquiet, List.append_nil, List.map_cons]

/-- An edit whose operations lead from one layout to another in any workspace. -/
theorem tidy_run_of_course (htidy : d.workspace.Tidy ties l) (hops : ∀ op ∈ ops, op.InDocument)
    (hcourse : Course ties held final ops l) (hdone : (d.run ops).workspace.agenda = []) :
    (d.run ops).workspace.Tidy ties final := by
  have htree : d.workspace.tree.Consistent := h.ready.tied.allConsistent
  cases hcourse with
  | done =>
    -- nothing is done but sweeping
    have hretains : d.workspace.Retains
        (({ d.workspace with history := [] } : Workspace).push []).sweep := retains_call htree []
    have hagenda : (({ d.workspace with history := [] } : Workspace).push []).sweep.agenda = [] := by
      rw [sweep_agenda]
      exact hquiet
    show ((({ d.workspace with history := [] } : Workspace).push []).sweep.settle taskLimit).Tidy _ _
    rw [settle_of_quiet hagenda]
    exact htidy.retain hretains
  | next proper leads rest =>
    refine tidy_run h hquiet hops proper (fun w hretains hheld => ?_) rest hdone
    exact leads w hretains.evolves.consistent hheld (htidy.retain hretains)

theorem tidy_apply (htidy : d.workspace.Tidy ties l) (hl : l.Proper) (hop : op.InDocument)
    (hstill : op.arranges = false) (hdone : (d.workspace.apply op).2.agenda = []) :
    (d.workspace.apply op).2.Tidy ties l := by
  have htree : d.workspace.tree.Consistent := h.ready.tied.allConsistent
  have hcall := h.call hquiet (List.forall_mem_singleton.mpr hop)
  rw [Workspace.push, hquiet] at hcall
  rw [apply_eq_settle hquiet] at hdone ⊢
  have hretains : d.workspace.Retains (d.workspace.call op) :=
    retains_of_same htree rfl rfl rfl rfl
  have hcalled : Underway ties held l d.workspace l op (d.workspace.call op) :=
    .called rfl hretains .done
  refine hcalled.settle hcall hl (fun w hretains hheld => ?_) hdone
  exact (htidy.retain hretains).operate_still hretains.evolves.consistent hop hstill

end Edit

end Document

end MathCanvas
