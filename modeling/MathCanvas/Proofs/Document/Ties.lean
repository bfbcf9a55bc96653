import MathCanvas.Proofs.Document.Arrangement

/-!
# Definitions in document order

The definitions of a name in a scope are those of the cells, and stand in the order of the positions
of the cells. Several cells can be at one position. Then a definition that is added or moved comes
behind those that are there, while its cell need not be behind the others in the document: a cell
that newly defines a name, or is moved to where it is, can be before another one with a definition
of that name. As long as the client makes no such edit (`Document.KeepsTies`), definitions stand in
the order of their cells throughout, and every reader observes the definition of the last cell at or
before its position that has one (`Document.Reached.definitions_eq`).
-/

namespace MathCanvas

namespace Region

variable {regions : List Region} {p q : Position}

theorem contains_congr (h : p.same q = true) (r : Region) : r.contains p = r.contains q := by
  rw [Bool.eq_iff_iff, contains_iff, contains_iff]
  simp only [Position.same_iff, Position.lt_def, Position.le_def] at *
  omega

end Region

namespace Document

open Workspace

variable {d d' : Document} {ties : Prop} {l l' : Layout} {c c' : CellId} {cell : Cell} {p q : Position}
  {s : ScopeId} {scope : Scope} {name : String} {settings : DocumentSettings} {backend : Backend}
  {may : Document → Edit → Prop}

/-- The names of which a cell has a definition. -/
def namesOf (d : Document) (c : CellId) : List String :=
  match d.workspace.cell? c with
  | some cell => cell.outputs.keys
  | none => []

/-- The cells behind a cell that are at its position. -/
def tiedBehind (d : Document) (c : CellId) : List CellId :=
  let cells := d.entries.map (·.cell)
  (cells.drop (cells.idxOf c + 1)).filter fun c' => (d.positionOf c').same (d.positionOf c)

/-- The definitions of a name that some cells have in a scope, in the order of the cells. -/
def definitionsOf (d : Document) (entries : List Entry) (s : ScopeId) (name : String) : List SlotId :=
  entries.filterMap fun entry => d.workspace.outputOf entry.cell s name

/-- Whether an edit keeps definitions at one position in the order of their cells: a cell gets no
new name that a cell behind it at its position defines, and does not go behind a cell at its own
position that defines one of its names. -/
def KeepsTies (d : Document) : Edit → Prop
  | .setExpression key e => ∀ c, d.cell? key = some c → ∀ c' ∈ d.tiedBehind c,
      ∀ name ∈ e.writtenNames, name ∈ d.namesOf c' → name ∈ d.namesOf c
  | .moveCell key p => ∀ c, d.cell? key = some c → (d.positionOf c).same p = true →
      ∀ c' ∈ d.tiedBehind c, ∀ name ∈ d.namesOf c, name ∉ d.namesOf c'
  | _ => True

/-! ### Documents at rest -/

/-- Nothing is in progress, and the cells of a document are in the order, at the positions and in the
scopes of a layout. -/
structure Settled (ties : Prop) (l : Layout) (d : Document) : Prop where
  order : d.entries.map (·.cell) = l.order
  proper : l.Proper
  scope : ∀ c ∈ l.order, l.scope c = some (d.scopeAt (l.position c))
  tidy : d.workspace.Tidy ties l

theorem scopeAt_congr (d : Document) (h : p.same q = true) : d.scopeAt p = d.scopeAt q := by
  have hcontains : (fun entry : Region × Nat => entry.1.contains p)
      = fun entry => entry.1.contains q := funext fun entry => Region.contains_congr h entry.1
  rw [scopeAt, scopeAt, Region.innermost?, Region.innermost?, hcontains]

theorem Nested.scopeAt_mem (h : d.Nested) (p : Position) :
    d.scopeAt p ∈ ScopeTree.rootId :: d.regions.map (·.scope) := by
  unfold scopeAt
  split
  · rename_i r i hinner
    rw [Region.innermost?,
      Region.latest_eq_getLast? ((Region.pairwise_zipIdx h.order 0).filter _)] at hinner
    have hmem := List.mem_of_mem_filter (List.mem_of_getLast? hinner)
    exact List.mem_cons_of_mem _ (List.mem_map_of_mem (List.fst_mem_of_mem_zipIdx hmem))
  · exact List.mem_cons_self

namespace Settled

variable (h : d.Settled ties l)
include h

theorem positionOf (hc : c ∈ l.order) : d.positionOf c = l.position c := by
  obtain ⟨-, cell, hcell, hposition⟩ := h.tidy.housed.cell hc
  rw [Document.positionOf, hcell]
  exact hposition

theorem mem_order_of_cell? {key : Key} (hc : d.cell? key = some c) : c ∈ l.order := by
  obtain ⟨-, hany⟩ := Option.filter_eq_some_iff.mp hc
  obtain ⟨entry, hentry, heq⟩ := List.any_eq_true.mp hany
  rw [← h.order]
  exact List.mem_map.mpr ⟨entry, hentry, by simpa using heq⟩

omit h in
theorem mem_namesOf {x : SlotId} (hx : d.workspace.outputOf c s name = some x) :
    name ∈ d.namesOf c := by
  obtain ⟨cell, hcell, ho⟩ := outputOf_eq_some_iff.mp hx
  rw [namesOf, hcell]
  simp only [Std.TreeMap.mem_keys, Std.TreeMap.mem_iff_isSome_getElem?, ho, Option.isSome_some]

theorem mem_tiedBehind (hc : c ∈ l.order) (hc' : c' ∈ l.order)
    (hsame : (l.position c').same (l.position c) = true) (hrank : l.rank c < l.rank c') :
    c' ∈ d.tiedBehind c := by
  unfold tiedBehind
  simp only
  rw [h.order, List.mem_filter, h.positionOf hc, h.positionOf hc']
  refine ⟨?_, hsame⟩
  rw [List.mem_drop_iff_getElem]
  have hlt := List.idxOf_lt_length_of_mem hc'
  refine ⟨l.rank c' - (l.rank c + 1), ?_, ?_⟩
  · show _ + _ < _
    unfold Layout.rank at *
    omega
  · have heq : l.order.idxOf c + 1 + (l.rank c' - (l.rank c + 1)) = l.order.idxOf c' := by
      unfold Layout.rank at *
      omega
    simp only [heq]
    exact List.getElem_idxOf hlt

/-- An edit of one cell leaves all others in the scopes that they belong to. -/
theorem scope_of_around (haround : l.Around c l')
    (hself : c ∈ l'.order → l'.scope c = some (d.scopeAt (l'.position c))) :
    ∀ c' ∈ l'.order, l'.scope c' = some (d.scopeAt (l'.position c')) := by
  intro c' hc'
  by_cases hne : c' = c
  · subst hne
    exact hself hc'
  · rw [haround.scope c' hne, haround.position c' hne]
    exact h.scope c' ((haround.mem_iff hne).mp hc')

omit h in
/-- The cells of a document in which one is put at its place. -/
theorem map_insertEntry (entry : Entry)
    (horder : d.entries.map (·.cell) = l.order.filter (· != entry.cell))
    (hposition : ∀ c ∈ d.entries.map (·.cell), d.positionOf c = l.position c)
    (p : Position) (scope : Option ScopeId) :
    (d.insertEntry entry p).entries.map (·.cell) = (l.place entry.cell p scope).order := by
  have hinsert : ∀ (f : Entry → Bool) (entries : List Entry),
      entries.insertIdx (entries.takeWhile f).length entry
        = entries.takeWhile f ++ entry :: entries.dropWhile f := by
    intro f entries
    induction entries with
    | nil => rfl
    | cons e rest ih =>
      by_cases he : f e = true
      · rw [List.takeWhile_cons_of_pos he, List.dropWhile_cons_of_pos he, List.length_cons,
          List.insertIdx_succ_cons, ih, List.cons_append]
      · rw [List.takeWhile_cons_of_neg he, List.dropWhile_cons_of_neg he]
        rfl
  have hcongr : ∀ entries : List Entry, (∀ e ∈ entries, d.positionOf e.cell = l.position e.cell) →
      entries.takeWhile (fun e => decide (d.positionOf e.cell ≤ p))
          = entries.takeWhile (fun e => decide (l.position e.cell ≤ p)) ∧
        entries.dropWhile (fun e => decide (d.positionOf e.cell ≤ p))
          = entries.dropWhile (fun e => decide (l.position e.cell ≤ p)) := by
    intro entries hentries
    induction entries with
    | nil => exact ⟨rfl, rfl⟩
    | cons e rest ih =>
      obtain ⟨he, hrest⟩ := List.forall_mem_cons.mp hentries
      simp only [List.takeWhile_cons, List.dropWhile_cons, he, ih hrest, and_self]
  obtain ⟨htake, hdrop⟩ := hcongr d.entries fun e he => hposition e.cell (List.mem_map_of_mem he)
  unfold insertEntry
  simp only
  rw [hinsert, htake, hdrop, List.map_append, List.map_cons]
  show _ = List.takeWhile _ _ ++ entry.cell :: List.dropWhile _ _
  rw [← horder, List.takeWhile_map, List.dropWhile_map]
  rfl

section Edits

variable (hn : d.Nested) (hquiet : d.workspace.agenda = [])
include hn hquiet

theorem createCell {p : Position} {e : Expr}
    (hdone : (d.edit (.createCell p e)).workspace.agenda = []) :
    (d.edit (.createCell p e)).Settled ties
      (l.place d.workspace.nextCell p (some (d.scopeAt p))) := by
  have hfresh : d.workspace.nextCell ∉ l.order := by
    intro hc
    obtain ⟨-, cell, hcell, -⟩ := h.tidy.housed.cell hc
    exact Nat.lt_irrefl _ (hn.tends.numbered hcell)
  have horder : d.entries.map (·.cell) = l.order.filter (· != d.workspace.nextCell) := by
    rw [h.order, List.filter_eq_self.mpr]
    intro c hc
    rw [bne_iff_ne]
    rintro rfl
    exact hfresh hc
  have hposition : ∀ c ∈ d.entries.map (·.cell), d.positionOf c = l.position c :=
    fun c hc => h.positionOf (h.order ▸ hc)
  refine ⟨?_, h.proper.place, ?_, ?_⟩
  · exact map_insertEntry ⟨d.workspace.nextCell, none⟩ horder hposition p _
  · refine h.scope_of_around Layout.around_place fun _ => ?_
    rw [Layout.scope_place, Layout.position_place]
  · refine tidy_run (d := d.insertEntry ⟨d.workspace.nextCell, none⟩ p) hn.tends hquiet
      (by simp [Op.InDocument]) h.proper.place (fun w hretains hheld => ?_) .done hdone
    exact (h.tidy.retain hretains).operate_newCell hretains.evolves.consistent hretains.nextCell hfresh
      Layout.around_place Layout.mem_place_self Layout.position_place Layout.scope_place
      (hheld ▸ hn.scopeAt_mem p) h.proper.last_place

theorem setExpression {key : Key} {e : Expr} (hties : ties → d.KeepsTies (.setExpression key e)) :
    (d.edit (.setExpression key e)).workspace.agenda = [] →
      (d.edit (.setExpression key e)).Settled ties l := by
  refine onCell_keeps (P := fun d' => d'.workspace.agenda = [] → d'.Settled ties l) (fun _ => h)
    fun c hkey hdone => ?_
  have hc := h.mem_order_of_cell? hkey
  refine ⟨h.order, h.proper, h.scope, ?_⟩
  refine tidy_run hn.tends hquiet (by simp [Op.InDocument]) h.proper
    (fun w hretains hheld => ?_) .done hdone
  refine (h.tidy.retain hretains).operate_setExpression hretains.evolves.consistent hc ?_
  intro ht cell hcell s _ name hname hnone c' x hx hsame
  by_contra hrank
  -- another cell behind it at its position would define the name already
  have hold := hretains.outputOf hx
  have hc' := (h.tidy.housed.owner (.inl hold)).1
  have hmem := hties ht c hkey c' (h.mem_tiedBehind hc hc' hsame (Nat.not_le.mp hrank)) name hname
    (mem_namesOf hold)
  obtain ⟨before, hbefore, hseat⟩ := hretains.cell hcell
  have houtputs : cell.outputs = before.outputs := congrArg (·.2.2) hseat
  rw [namesOf, hbefore] at hmem
  simp only [Std.TreeMap.mem_keys, Std.TreeMap.mem_iff_isSome_getElem?, ← houtputs, hnone] at hmem
  cases hmem

theorem deleteCell {key : Key} : (d.edit (.deleteCell key)).workspace.agenda = [] →
    ∃ l', (d.edit (.deleteCell key)).Settled ties l' := by
  refine onCell_keeps (P := fun d' => d'.workspace.agenda = [] → ∃ l', d'.Settled ties l')
    (fun _ => ⟨l, h⟩) fun c hkey hdone => ?_
  have hc := h.mem_order_of_cell? hkey
  set out := l.withScope c none with hout
  have haround : l.Around c { out with order := l.order.filter (· != c) } :=
    ⟨by simp [List.filter_filter], fun _ _ => rfl, Layout.around_withScope.scope⟩
  have hgone : c ∉ l.order.filter (· != c) := by simp
  refine ⟨{ out with order := l.order.filter (· != c) }, ?_, ?_, ?_, ?_⟩
  · show (d.entries.filter (·.cell != c)).map (·.cell) = _
    rw [← h.order, List.filter_map]
    rfl
  · exact ⟨h.proper.nodup.filter _, h.proper.sorted.filter _⟩
  · exact h.scope_of_around haround fun hmem => absurd hmem hgone
  · refine tidy_run (d := d.removeEntry c) hn.tends hquiet (by simp [Op.InDocument])
      (h.proper.withScope : out.Proper) (fun w hretains hheld => ?_) (.next ?_ (fun w hw _ htidy => ?_) .done) hdone
    · refine (h.tidy.retain hretains).operate_setScope hretains.evolves.consistent hc (by simp)
        fun _ _ c' hc' _ hnone => ?_
      by_cases hne : c' = c
      · rw [hne]
      · rw [Layout.scope_withScope, Layout.around_withScope.scope c' hne, h.scope c' hc'] at hnone
        cases hnone
    · exact ⟨h.proper.nodup.filter _, h.proper.sorted.filter _⟩
    · refine htidy.operate_dropCell hw hc ⟨?_, fun _ _ => rfl, fun _ _ => rfl⟩ hgone
        Layout.scope_withScope
      exact haround.order

omit hn hquiet in
/-- A cell that is moved comes last at its position, be it at a new one or at the one it has. -/
theorem setPosition (hc : c ∈ l.order)
    (hties : ties → (l.position c).same p = true → ∀ c' ∈ d.tiedBehind c, ∀ name ∈ d.namesOf c,
      name ∉ d.namesOf c') :
    ∃ q : Position, p.same q = true ∧ ∀ w : Workspace, d.workspace.Retains w →
      (w.operate (.setPosition c p)).2.Busy ties (l.place c q (l.scope c)) w.agenda := by
  by_cases hsame : (l.position c).same p = true
  · refine ⟨l.position c, Position.same_symm hsame, fun w hretains => ?_⟩
    have hconsistent : w.tree.Consistent := hretains.evolves.consistent
    have htidy := h.tidy.retain hretains
    refine htidy.operate_setPosition_of_same hc Layout.around_place Layout.mem_place_self
      (Function.update_eq_self _ _) (Function.update_eq_self _ _) hsame fun ht => ?_
    refine (htidy.ranked ht).place htidy.housed h.proper hconsistent hc ?_
    intro s name x c' y hx hy hat
    by_contra hrank
    have hold := hretains.outputOf hx
    have hold' := hretains.outputOf hy
    have hc' := (h.tidy.housed.owner (.inl hold')).1
    exact hties ht hsame c' (h.mem_tiedBehind hc hc' hat (Nat.not_le.mp hrank)) name
      (mem_namesOf hold) (mem_namesOf hold')
  · refine ⟨p, Position.same_refl p, fun w hretains => ?_⟩
    exact (h.tidy.retain hretains).operate_setPosition hretains.evolves.consistent hc
      Layout.around_place Layout.mem_place_self Layout.position_place Layout.scope_place
      (by simpa using hsame) h.proper.last_place

theorem moveCell {key : Key} {p : Position} (hties : ties → d.KeepsTies (.moveCell key p)) :
    (d.edit (.moveCell key p)).workspace.agenda = [] →
      ∃ l', (d.edit (.moveCell key p)).Settled ties l' := by
  refine onCell_keeps (P := fun d' => d'.workspace.agenda = [] → ∃ l', d'.Settled ties l')
    (fun _ => ⟨l, h⟩) fun c hkey => ?_
  have hc := h.mem_order_of_cell? hkey
  split
  · rename_i entry hentry
    intro hdone
    have heq : entry.cell = c := by simpa using List.find?_some hentry
    subst heq
    obtain ⟨q, hq, hfirst⟩ := h.setPosition (p := p) hc fun ht hsame =>
      hties ht _ hkey (h.positionOf hc ▸ hsame)
    set l₁ := l.place entry.cell q (l.scope entry.cell) with hl₁
    have hplace : l.Around entry.cell l₁ := Layout.around_place
    have haround : l.Around entry.cell (l₁.withScope entry.cell (some (d.scopeAt p))) :=
      ⟨hplace.order, hplace.position, fun c' hne =>
        (Layout.around_withScope.scope c' hne).trans (hplace.scope c' hne)⟩
    refine ⟨l₁.withScope entry.cell (some (d.scopeAt p)), ?_, h.proper.place.withScope,
      h.scope_of_around haround fun _ => ?_, ?_⟩
    · have horder : (d.removeEntry entry.cell).entries.map (·.cell)
          = l.order.filter (· != entry.cell) := by
        show (d.entries.filter (·.cell != entry.cell)).map (·.cell) = _
        rw [← h.order, List.filter_map]
        rfl
      have hposition : ∀ c ∈ (d.removeEntry entry.cell).entries.map (·.cell),
          (d.removeEntry entry.cell).positionOf c = l.position c := by
        intro c hmem
        rw [horder] at hmem
        exact h.positionOf (List.mem_of_mem_filter hmem)
      have hinsert := map_insertEntry entry horder hposition p (l.scope entry.cell)
      exact hinsert.trans (Layout.order_place_congr hq : _ = l₁.order)
    · rw [Layout.scope_withScope]
      show _ = some (d.scopeAt (l₁.position entry.cell))
      rw [hl₁, Layout.position_place, d.scopeAt_congr hq]
    · refine tidy_run (d := (d.removeEntry entry.cell).insertEntry entry p) hn.tends hquiet
        (by simp [Op.InDocument]) h.proper.place (fun w hretains _ => hfirst w hretains)
        (.next h.proper.place.withScope (fun w hw hheld htidy => ?_) .done) hdone
      refine htidy.operate_setScope hw Layout.mem_place_self
        (fun s hs => hheld ▸ Option.some.inj hs ▸ hn.scopeAt_mem p) fun _ _ => ?_
      have hlast : l₁.Last entry.cell := h.proper.last_place
      exact Layout.Last.lastInScope (l := l₁.withScope _ _) hlast
  · exact fun _ => ⟨l, h⟩

/-- The regions change, and every cell goes to the scope that it belongs to then. -/
theorem rehome {regions : List Region} {created : Option RegionId}
    (hadmits : d.Admits regions created) (hdone : (d.rehome regions created).workspace.agenda = []) :
    ∃ l', (d.rehome regions created).Settled ties l' := by
  have hprogress := hn.progress hquiet hadmits
  have hnested := hn.withRegions hquiet hadmits
  have hsequence := hprogress.sequence
  have hthere : ∀ s ∈ ScopeTree.rootId :: d.regions.map (·.scope), d.workspace.tree.get? s ≠ none := by
    intro s hs
    rcases List.mem_cons.mp hs with rfl | hs
    · exact hn.root
    · obtain ⟨r, hr, rfl⟩ := List.mem_map.mp hs
      obtain ⟨further, hshape⟩ := hn.around r hr
      rw [Ne, ← ScopeTree.shape?_eq_none_iff, hshape]
      simp
  -- the new scopes have no definitions
  have htidy : (d.withRegions regions created).workspace.Tidy ties l := by
    refine ⟨⟨h.tidy.housed.cell, h.tidy.housed.owner, h.tidy.housed.unique, fun hp => ?_,
      fun {c s name x} hx _ => ?_, h.tidy.housed.unowned⟩, h.tidy.lodged,
      fun ht => ⟨fun s name => ?_, fun hx hp => (h.tidy.ranked ht).free hx ?_⟩⟩
    · exact h.tidy.housed.owned (hsequence _ _ ▸ hp)
    · show ∃ p, (x, p) ∈ (d.settling regions created).tree.sequence s name ∧ _
      rw [hsequence]
      obtain ⟨hc, cell, hcell, hscope⟩ := h.tidy.housed.owner hx
      refine h.tidy.housed.placed hx (hthere s ?_)
      have hat := (h.tidy.lodged c hc cell hcell).symm.trans hscope
      rw [h.scope c hc] at hat
      exact Option.some.inj hat ▸ hn.scopeAt_mem _
    · show ((d.settling regions created).tree.sequence s name).Pairwise _
      rw [hsequence]
      exact (h.tidy.ranked ht).inRank s name
    · exact hsequence _ _ ▸ hp
  set target : CellId → ScopeId := fun c =>
    (d.withRegions regions created).scopeAt (d.positionOf c) with htarget
  have hcourse : Course ties (ScopeTree.rootId :: (d.withRegions regions created).regions.map (·.scope))
      (l.moved target l.order) (l.order.map fun c => .setScope c (some (target c)))
      (l.moved target []) := by
    refine course_moved h.proper (fun c => hnested.scopeAt_mem _) (fun c hc c' hc' hsame => ?_)
      l.order [] rfl
    rw [h.scope c hc, h.scope c' hc', d.scopeAt_congr hsame]
  rw [Layout.moved_nil] at hcourse
  have hops : (d.withRegions regions created).entries.map (fun entry =>
      Op.setScope entry.cell (some (target entry.cell)))
      = l.order.map fun c => .setScope c (some (target c)) := by
    rw [← h.order, List.map_map]
    rfl
  refine ⟨l.moved target l.order, h.order, ⟨h.proper.nodup, h.proper.sorted⟩, fun c hc => ?_, ?_⟩
  · show (if c ∈ l.order then some (target c) else l.scope c) = _
    have hlisted : c ∈ l.order := hc
    rw [if_pos hlisted]
    show some ((d.withRegions regions created).scopeAt (d.positionOf c)) = _
    rw [h.positionOf hlisted]
    rfl
  · rw [← hops] at hcourse
    refine tidy_run_of_course hnested.tends hquiet htidy ?_ hcourse hdone
    intro op hop
    obtain ⟨entry, -, rfl⟩ := List.mem_map.mp hop
    trivial

/-- An edit that arranges nothing. -/
theorem run_still {ops : List Op} (hops : ∀ op ∈ ops, op.InDocument ∧ op.arranges = false)
    (hdone : (d.run ops).workspace.agenda = []) : (d.run ops).Settled ties l :=
  ⟨h.order, h.proper, h.scope, tidy_run_of_course hn.tends hquiet h.tidy (fun op hop => (hops op hop).1)
    (.of_still h.proper hops) hdone⟩

/-- Every edit leads from one layout to another, and keeps ties in order if it is one that does. -/
theorem edit {e : Edit} (hties : ties → d.KeepsTies e) (hdone : (d.edit e).workspace.agenda = []) :
    ∃ l', (d.edit e).Settled ties l' := by
  cases e with
  | createCell p e => exact ⟨_, h.createCell hn hquiet hdone⟩
  | setExpression key e => exact ⟨l, h.setExpression hn hquiet hties hdone⟩
  | moveCell key p => exact h.moveCell hn hquiet hties hdone
  | deleteCell key => exact h.deleteCell hn hquiet hdone
  | setCellSize key size =>
    revert hdone
    refine onCell_keeps (P := fun d' => d'.workspace.agenda = [] → ∃ l', d'.Settled ties l')
      (fun _ => ⟨l, h⟩) fun c _ hdone => ?_
    set resized := d.entries.map fun entry =>
      if entry.cell == c then { entry with size := some size } else entry with hresized
    have horder : resized.map (·.cell) = l.order := by
      rw [← h.order, hresized, List.map_map]
      refine List.map_congr_left fun entry _ => ?_
      simp only [Function.comp]
      split <;> rfl
    have hsettled : ({ d with entries := resized } : Document).Settled ties l :=
      ⟨horder, h.proper, h.scope, h.tidy⟩
    exact ⟨l, hsettled.run_still (hn.of_tends _ _ hn.tends) hquiet (by simp) hdone⟩
  | recalculateCell key =>
    revert hdone
    refine onCell_keeps (P := fun d' => d'.workspace.agenda = [] → ∃ l', d'.Settled ties l')
      (fun _ => ⟨l, h⟩) fun c _ hdone => ?_
    exact ⟨l, h.run_still hn hquiet (by simp [Op.InDocument, Op.arranges]) hdone⟩
  | recalculate =>
    exact ⟨l, h.run_still hn hquiet (by simp [Op.InDocument, Op.arranges]) hdone⟩
  | setCalculationMode mode =>
    have hsettled : ({ d with
        settings := { d.settings with calculationMode := mode } } : Document).Settled ties l :=
      ⟨h.order, h.proper, h.scope, h.tidy⟩
    exact ⟨l, hsettled.run_still (hn.of_tends _ _ hn.tends) hquiet
      (by simp [Op.InDocument, Op.arranges]) hdone⟩
  | createRegion name start stop closed =>
    revert hdone
    refine hn.createRegion_keeps (P := fun d' => d'.workspace.agenda = [] → ∃ l', d'.Settled ties l')
      (fun _ => ⟨l, h⟩) (fun n regions created hn' hadmits hdone => ?_) _ _ _ _
    have hsettled : ({ d with nextRegion := n } : Document).Settled ties l :=
      ⟨h.order, h.proper, h.scope, h.tidy⟩
    exact hsettled.rehome hn' hquiet hadmits hdone
  | deleteRegion key =>
    revert hdone
    refine hn.deleteRegion_keeps (P := fun d' => d'.workspace.agenda = [] → ∃ l', d'.Settled ties l')
      (fun _ => ⟨l, h⟩) (fun regions created hadmits hdone => ?_) key
    exact h.rehome hn hquiet hadmits hdone
  | answer op hop =>
    exact ⟨l, h.order, h.proper, h.scope,
      tidy_apply hn.tends hquiet h.tidy h.proper hop.inDocument hop.arranges hdone⟩

end Edits

end Settled

/-- A new document has no cells and no definitions. -/
theorem settled_new (ties : Prop) (settings : DocumentSettings) (backend : Backend) :
    (Document.new settings backend).Settled ties ⟨[], fun _ => .origin, fun _ => none⟩ := by
  have hcell : ∀ c, (Document.new settings backend).workspace.cell? c = none := by
    simp [Document.new, Workspace.cell?]
  have hnone : ∀ {c s name x}, (Document.new settings backend).workspace.outputOf c s name ≠ some x := by
    intro c s name x hx
    obtain ⟨cell, hfound, -⟩ := outputOf_eq_some_iff.mp hx
    rw [hcell] at hfound
    cases hfound
  have hempty : ∀ {s name}, (Document.new settings backend).workspace.tree.sequence s name = [] := by
    intro s name
    cases hs : ScopeTree.root.get? s with
    | none => exact ScopeTree.sequence_of_none hs name
    | some scope =>
      obtain ⟨-, rfl⟩ := get?_root_eq_some hs
      exact (ScopeTree.sequence_of_get? hs name).trans (by simp [Bindings.sequence, Bindings.slotsOf])
  refine ⟨rfl, ⟨List.nodup_nil, List.Pairwise.nil⟩, by simp, ⟨⟨by simp, fun hx => ?_, fun hx => ?_,
    fun hp => ?_, fun hx => ?_, by simp⟩, by simp, fun _ => ⟨fun s name => ?_, fun hx => ?_⟩⟩⟩
  · exact absurd (has_none.mp hx) hnone
  · exact absurd (has_none.mp hx) hnone
  · rw [hempty] at hp
    cases hp
  · exact absurd (has_none.mp hx) hnone
  · rw [hempty]
    exact List.Pairwise.nil
  · exact absurd hx hnone

theorem Reached.exists_settled (h : Reached settings backend may d) (hbackend : backend.Answering)
    (hties : ties → ∀ d e, may d e → d.KeepsTies e) (hquiet : d.workspace.agenda = []) :
    ∃ l, d.Settled ties l := by
  induction h with
  | new => exact ⟨_, settled_new ties settings backend⟩
  | edit e hreached hready hmay ih =>
    obtain ⟨l, hsettled⟩ := ih hready
    exact hsettled.edit (hreached.nested hbackend) hready (fun ht => hties ht _ _ hmay) hquiet

/-! ### The definitions of a name -/

namespace Settled

variable {x : SlotId} (h : d.Settled ties l) (hconsistent : d.workspace.tree.Consistent)
  (hs : d.workspace.tree.get? s = some scope)

include h in
theorem pairwise_rank : d.entries.Pairwise fun e e' => l.rank e.cell < l.rank e'.cell := by
  have hrank : l.order.Pairwise fun c c' => l.rank c < l.rank c' := by
    rw [List.pairwise_iff_getElem]
    intro i j hi hj hij
    show l.order.idxOf _ < l.order.idxOf _
    rwa [h.proper.nodup.idxOf_getElem i hi, h.proper.nodup.idxOf_getElem j hj]
  rwa [← h.order, List.pairwise_map] at hrank

include h in
theorem mem_definitionsOf : x ∈ d.definitionsOf d.entries s name ↔
    ∃ c, d.workspace.outputOf c s name = some x := by
  rw [definitionsOf, List.mem_filterMap]
  constructor
  · rintro ⟨entry, -, hx⟩
    exact ⟨entry.cell, hx⟩
  · rintro ⟨c, hx⟩
    have hc := (h.tidy.housed.owner (.inl hx)).1
    rw [← h.order] at hc
    obtain ⟨entry, hentry, rfl⟩ := List.mem_map.mp hc
    exact ⟨entry, hentry, hx⟩

/-- Whether the cell that a definition belongs to comes before that of another one. -/
def Before (d : Document) (l : Layout) (s : ScopeId) (name : String) (x y : SlotId) : Prop :=
  ∃ c c', d.workspace.outputOf c s name = some x ∧ d.workspace.outputOf c' s name = some y ∧
    l.rank c < l.rank c'

include h in
theorem before_asymm (x y : SlotId) (hxy : Before d l s name x y) : ¬Before d l s name y x := by
  rintro ⟨c₂, c₂', hy, hx, hrank₂⟩
  obtain ⟨c₁, c₁', hx', hy', hrank₁⟩ := hxy
  rw [(h.tidy.housed.unique (.inl hx) (.inl hx')).1, (h.tidy.housed.unique (.inl hy) (.inl hy')).1]
    at hrank₂
  exact Nat.lt_asymm hrank₁ hrank₂

include h in
theorem pairwise_definitionsOf :
    (d.definitionsOf d.entries s name).Pairwise (Before d l s name) := by
  refine h.pairwise_rank.filterMap _ fun e e' hrank x hx y hy => ?_
  exact ⟨e.cell, e'.cell, hx, hy, hrank⟩

end Settled

/-- Two cells at one position and one below that reads `x`. -/
def tied (first second : Expr) : Document :=
  (((Document.new .default .immediate).edit (.createCell .origin first)).edit
    (.createCell .origin second)).edit
    (.createCell ⟨.ofInt 0, .ofInt 5⟩ (.app "Equal" [.symbol "x", .missing]))

/-- The definition `x := n`. -/
def assignment (n : Int) : Expr := .app "Assign" [.symbol "x", .number (.ofInt n)]

end Document

end MathCanvas
