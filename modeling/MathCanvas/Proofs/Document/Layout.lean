import MathCanvas.Proofs.Document.Still

/-!
# Where definitions belong

Every definition in a document belongs to a cell. While the outputs of a cell are brought in step with
its expression some definitions are going to be removed, some of the cell's own are not at its
position yet, and one may not be handed over to the cell yet (`Promise`). `Workspace.Housed` says that
this is all: every other definition has one owner and stands at the position of its owner.
`Workspace.Ranked` says that definitions at the positions of their owners stand in the order of
these.

For each change of one definition, and for the changes of a cell, there is a lemma on what becomes of
both.
-/

namespace MathCanvas

/-- The order in which cells lie, with the position and the scope of each. -/
structure Layout where
  order : List CellId
  position : CellId → Position
  scope : CellId → Option ScopeId

/-- A definition that is made for an output of a cell, but not handed over yet. -/
structure Promise where
  cell : CellId
  scope : ScopeId
  name : String
  slot : SlotId

namespace Layout

variable {l : Layout} {c c' : CellId}

/-- The place of a cell in the order. -/
def rank (l : Layout) (c : CellId) : Nat := l.order.idxOf c

/-- No cell lies twice, and positions do not decrease. -/
structure Proper (l : Layout) : Prop where
  nodup : l.order.Nodup
  sorted : l.order.Pairwise fun c c' => l.position c ≤ l.position c'

theorem Proper.position_le (h : l.Proper) (hc : c ∈ l.order) (hc' : c' ∈ l.order)
    (hrank : l.rank c < l.rank c') : l.position c ≤ l.position c' := by
  have hlt := List.idxOf_lt_length_of_mem hc
  have hlt' := List.idxOf_lt_length_of_mem hc'
  have hle := List.pairwise_iff_getElem.mp h.sorted _ _ hlt hlt' hrank
  rwa [List.getElem_idxOf hlt, List.getElem_idxOf hlt'] at hle

theorem Proper.rank_le (h : l.Proper) (hc : c ∈ l.order) (hc' : c' ∈ l.order)
    (hlt : l.position c < l.position c') : l.rank c ≤ l.rank c' := by
  by_contra hrank
  exact Position.not_lt.mpr (h.position_le hc' hc (Nat.not_le.mp hrank)) hlt

theorem eq_of_rank_eq (hc : c ∈ l.order) (hrank : l.rank c = l.rank c') : c = c' :=
  List.idxOf_inj hc |>.mp hrank

/-- No other cell at its position comes behind a cell. -/
def Last (l : Layout) (c : CellId) : Prop :=
  ∀ c' ∈ l.order, (l.position c').same (l.position c) = true → l.rank c' ≤ l.rank c

/-- No other cell at its position that is in the same scope comes behind a cell. -/
def LastInScope (l : Layout) (c : CellId) : Prop :=
  ∀ c' ∈ l.order, (l.position c').same (l.position c) = true → l.scope c' = l.scope c →
    l.rank c' ≤ l.rank c

theorem Last.lastInScope (h : l.Last c) : l.LastInScope c := fun c' hc' hsame _ => h c' hc' hsame

/-- All cells but one stay where they are. -/
structure Around (l : Layout) (c : CellId) (l' : Layout) : Prop where
  order : l'.order.filter (· != c) = l.order.filter (· != c)
  position : ∀ c' ≠ c, l'.position c' = l.position c'
  scope : ∀ c' ≠ c, l'.scope c' = l.scope c'

namespace Around

variable {l' : Layout} {c₁ c₂ : CellId}

theorem refl (l : Layout) (c : CellId) : l.Around c l := ⟨rfl, fun _ _ => rfl, fun _ _ => rfl⟩

theorem mem_iff (h : l.Around c l') (hne : c₁ ≠ c) : c₁ ∈ l'.order ↔ c₁ ∈ l.order := by
  have hmem : ∀ order : List CellId, c₁ ∈ order ↔ c₁ ∈ order.filter (· != c) := by
    intro order
    rw [List.mem_filter]
    simp [hne]
  rw [hmem, h.order, ← hmem]

theorem rank_filter (order : List CellId) (hmem : c₁ ∈ order) (h₁ : c₁ ≠ c) (h₂ : c₂ ≠ c) :
    (order.filter (· != c)).idxOf c₁ ≤ (order.filter (· != c)).idxOf c₂ ↔
      order.idxOf c₁ ≤ order.idxOf c₂ := by
  induction order with
  | nil => cases hmem
  | cons a rest ih =>
    by_cases ha : a = c
    · rw [List.filter_cons_of_neg (by simp [ha]), List.idxOf_cons_ne rest (ha ▸ h₁.symm),
        List.idxOf_cons_ne rest (ha ▸ h₂.symm), Nat.succ_le_succ_iff]
      exact ih ((List.mem_cons.mp hmem).resolve_left (ha ▸ h₁))
    · rw [List.filter_cons_of_pos (by simpa using ha)]
      by_cases ha₁ : a = c₁
      · rw [ha₁, List.idxOf_cons_self, List.idxOf_cons_self]
        simp
      by_cases ha₂ : a = c₂
      · rw [ha₂] at ha₁ ⊢
        rw [List.idxOf_cons_self, List.idxOf_cons_self, List.idxOf_cons_ne _ ha₁,
          List.idxOf_cons_ne _ ha₁]
        simp
      · rw [List.idxOf_cons_ne _ ha₁, List.idxOf_cons_ne _ ha₂, List.idxOf_cons_ne _ ha₁,
          List.idxOf_cons_ne _ ha₂, Nat.succ_le_succ_iff, Nat.succ_le_succ_iff]
        exact ih ((List.mem_cons.mp hmem).resolve_left (Ne.symm ha₁))

/-- The others stay in their order. -/
theorem rank_le (h : l.Around c l') (h₁ : c₁ ≠ c) (h₂ : c₂ ≠ c) (hmem : c₁ ∈ l.order)
    (hrank : l.rank c₁ ≤ l.rank c₂) : l'.rank c₁ ≤ l'.rank c₂ := by
  rw [rank, rank, ← rank_filter l'.order ((h.mem_iff h₁).mpr hmem) h₁ h₂, h.order,
    rank_filter l.order hmem h₁ h₂]
  exact hrank

end Around

end Layout

theorem Position.same_refl (p : Position) : p.same p = true :=
  Position.same_iff.mpr ⟨Position.le_refl p, Position.le_refl p⟩

theorem Position.same_symm {p q : Position} (h : p.same q = true) : q.same p = true :=
  Position.same_iff.mpr (Position.same_iff.mp h).symm

theorem Position.same_trans {p q r : Position} (h : p.same q = true) (h' : q.same r = true) :
    p.same r = true := by
  rw [Position.same_iff] at *
  exact ⟨Position.le_trans h.1 h'.1, Position.le_trans h'.2 h.2⟩

/-- Where an element joins a list, a relation between all pairs has to be seen only for the pairs with
this element. -/
theorem Joins.pairwise {R : SlotId × Position → SlotId × Position → Prop} {x : SlotId × Position}
    {l l' : List (SlotId × Position)} (h : Joins x l l') (hl : l.Pairwise R)
    (hbefore : ∀ y ∈ l, y.2 ≤ x.2 → R y x) (hafter : ∀ y ∈ l, x.2 < y.2 → R x y) :
    l'.Pairwise R := by
  obtain ⟨before, after, rfl, rfl, hle, hlt⟩ := h
  rw [List.pairwise_append] at hl ⊢
  refine ⟨hl.1, List.pairwise_cons.mpr ⟨fun y hy => ?_, hl.2.1⟩, fun y hy z hz => ?_⟩
  · exact hafter y (List.mem_append_right _ hy) (hlt y hy)
  · rcases List.mem_cons.mp hz with rfl | hz
    · exact hbefore y (List.mem_append_left _ hy) (hle y hy)
    · exact hl.2.2 y hy z hz

namespace Workspace

variable {w w' : Workspace} {l l' : Layout} {c c' : CellId} {cell cell' : Cell} {s s' : ScopeId}
  {name name' : String} {x y : SlotId} {p q : Position} {R R' M M' : List (ScopeId × SlotId)}
  {K : Option Promise}

/-- The definition that a cell has for a name in a scope. -/
def outputOf (w : Workspace) (c : CellId) (s : ScopeId) (name : String) : Option SlotId :=
  (w.cell? c).bind fun cell =>
    (cell.outputs[name]?).bind fun o => if o.scope = s then some o.slot else none

theorem outputOf_eq_some_iff : w.outputOf c s name = some x ↔
    ∃ cell, w.cell? c = some cell ∧ cell.outputs[name]? = some ⟨s, x⟩ := by
  unfold outputOf
  simp only [Option.bind_eq_some_iff]
  constructor
  · rintro ⟨cell, hcell, o, ho, heq⟩
    split at heq
    · rename_i hs
      cases heq
      exact ⟨cell, hcell, by rw [ho, ← hs]⟩
    · cases heq
  · rintro ⟨cell, hcell, ho⟩
    exact ⟨cell, hcell, _, ho, if_pos rfl⟩

theorem outputOf_of_cell? (hcell : w.cell? c = some cell) :
    w.outputOf c s name = some x ↔ cell.outputs[name]? = some ⟨s, x⟩ := by
  rw [outputOf_eq_some_iff, hcell]
  constructor
  · rintro ⟨_, ⟨⟩, ho⟩
    exact ho
  · exact fun ho => ⟨cell, rfl, ho⟩

/-- A cell has a definition, or is going to have it. -/
def Has (w : Workspace) (K : Option Promise) (c : CellId) (s : ScopeId) (name : String)
    (x : SlotId) : Prop :=
  w.outputOf c s name = some x ∨ K = some ⟨c, s, name, x⟩

theorem has_none : w.Has none c s name x ↔ w.outputOf c s name = some x := by simp [Has]

/-- Every definition has one owner and stands at its position, but for those in `R`, which are going
to be removed, and those in `M`, which are going to be moved. -/
structure Housed (l : Layout) (R M : List (ScopeId × SlotId)) (K : Option Promise)
    (w : Workspace) : Prop where
  cell : ∀ {c : CellId}, c ∈ l.order →
    c ∈ w.heldCells ∧ ∃ cell, w.cell? c = some cell ∧ cell.position = l.position c
  owner : ∀ {c : CellId} {s : ScopeId} {name : String} {x : SlotId}, w.Has K c s name x →
    c ∈ l.order ∧ ∃ cell, w.cell? c = some cell ∧ cell.scope = some s
  unique : ∀ {c c' : CellId} {s : ScopeId} {name name' : String} {x : SlotId},
    w.Has K c s name x → w.Has K c' s name' x → c = c' ∧ name = name'
  owned : ∀ {s : ScopeId} {name : String} {x : SlotId} {p : Position},
    (x, p) ∈ w.tree.sequence s name → (∃ c, w.Has K c s name x) ∨ (s, x) ∈ R
  placed : ∀ {c : CellId} {s : ScopeId} {name : String} {x : SlotId}, w.Has K c s name x →
    w.tree.get? s ≠ none → ∃ p, (x, p) ∈ w.tree.sequence s name ∧
      (p.same (l.position c) = true ∨ (s, x) ∈ M)
  unowned : ∀ {c : CellId} {s : ScopeId} {name : String} {x : SlotId}, (s, x) ∈ R →
    ¬w.Has K c s name x

/-- No cell behind another one at the same position has a definition of the name. -/
def Free (w : Workspace) (l : Layout) (c : CellId) (s : ScopeId) (name : String) : Prop :=
  ∀ (c' : CellId) (x : SlotId), w.outputOf c' s name = some x →
    (l.position c').same (l.position c) = true → l.rank c' ≤ l.rank c

/-- The owners of two definitions come in the order of these, if both are where they belong. -/
def InRank (w : Workspace) (l : Layout) (K : Option Promise) (s : ScopeId) (name : String)
    (a b : SlotId × Position) : Prop :=
  ∀ c c' : CellId, w.Has K c s name a.1 → w.Has K c' s name b.1 →
    a.2.same (l.position c) = true → b.2.same (l.position c') = true → l.rank c ≤ l.rank c'

/-- Definitions that are where they belong stand in the order of their owners, and the others are
free to take their places. -/
structure Ranked (l : Layout) (K : Option Promise) (w : Workspace) : Prop where
  inRank : ∀ (s : ScopeId) (name : String),
    (w.tree.sequence s name).Pairwise fun a b => w.InRank l K s name a b
  free : ∀ {c : CellId} {s : ScopeId} {name : String} {x : SlotId} {p : Position},
    w.outputOf c s name = some x → (x, p) ∈ w.tree.sequence s name →
    p.same (l.position c) = false → w.Free l c s name

/-! ### What is retained -/

section Retains

variable (h : w.Retains w')
include h

theorem Retains.outputOf (hx : w'.outputOf c s name = some x) : w.outputOf c s name = some x := by
  obtain ⟨cell', hcell', ho⟩ := outputOf_eq_some_iff.mp hx
  obtain ⟨cell, hcell, hseat⟩ := h.cell hcell'
  have houtputs : cell'.outputs = cell.outputs := congrArg (·.2.2) hseat
  exact outputOf_eq_some_iff.mpr ⟨cell, hcell, houtputs ▸ ho⟩

theorem Retains.has (hx : w'.Has K c s name x) : w.Has K c s name x := hx.imp_left h.outputOf

/-- A cell that is held keeps its definitions. -/
theorem Retains.outputOf_of_held (hheld : c ∈ w.heldCells) (hx : w.outputOf c s name = some x) :
    w'.outputOf c s name = some x := by
  obtain ⟨cell, hcell, ho⟩ := outputOf_eq_some_iff.mp hx
  obtain ⟨cell', hcell'⟩ := h.held hheld hcell
  obtain ⟨before, hbefore, hseat⟩ := h.cell hcell'
  rw [hcell] at hbefore
  cases hbefore
  have houtputs : cell'.outputs = cell.outputs := congrArg (·.2.2) hseat
  exact outputOf_eq_some_iff.mpr ⟨cell', hcell', houtputs ▸ ho⟩

/-- A cell that is held stays at its position and in its scope. -/
theorem Retains.seat_of_held (hheld : c ∈ w.heldCells) (hcell : w.cell? c = some cell) :
    ∃ cell', w'.cell? c = some cell' ∧ cell'.position = cell.position ∧ cell'.scope = cell.scope := by
  obtain ⟨cell', hcell'⟩ := h.held hheld hcell
  obtain ⟨before, hbefore, hseat⟩ := h.cell hcell'
  rw [hcell] at hbefore
  cases hbefore
  exact ⟨cell', hcell', congrArg (·.2.1) hseat, congrArg (·.1) hseat⟩

theorem Retains.mem_sequence {a : SlotId × Position} (ha : a ∈ w'.tree.sequence s name) :
    a ∈ w.tree.sequence s name := by
  rcases h.evolves.sequence_or s name with heq | hnone
  · rwa [heq] at ha
  · rw [ScopeTree.sequence_of_none hnone] at ha
    cases ha

theorem Housed.retain (hh : w.Housed l R M K) : w'.Housed l R M K where
  cell hc := by
    obtain ⟨hheld, cell, hcell, hposition⟩ := hh.cell hc
    obtain ⟨cell', hcell', hposition', -⟩ := h.seat_of_held hheld hcell
    exact ⟨h.heldCells ▸ hheld, cell', hcell', hposition'.trans hposition⟩
  owner hx := by
    obtain ⟨hc, cell, hcell, hscope⟩ := hh.owner (h.has hx)
    obtain ⟨cell', hcell', -, hscope'⟩ := h.seat_of_held (hh.cell hc).1 hcell
    exact ⟨hc, cell', hcell', hscope'.trans hscope⟩
  unique hx hx' := hh.unique (h.has hx) (h.has hx')
  owned hx := by
    refine (hh.owned (h.mem_sequence hx)).imp_left ?_
    rintro ⟨c, hc⟩
    exact ⟨c, hc.imp_left (h.outputOf_of_held (hh.cell (hh.owner hc).1).1)⟩
  placed {c s name x} hx hs := by
    have hold : w.tree.get? s ≠ none := by
      obtain ⟨scope', hscope'⟩ := Option.ne_none_iff_exists'.mp hs
      obtain ⟨scope, hscope, -⟩ := h.evolves.scope hscope'
      simp [hscope]
    rw [(h.evolves.sequence_or s name).resolve_right hs]
    exact hh.placed (h.has hx) hold
  unowned hR hx := hh.unowned hR (h.has hx)

theorem Free.retain (hfree : w.Free l c s name) : w'.Free l c s name :=
  fun c' x hx => hfree c' x (h.outputOf hx)

theorem Ranked.retain (hr : w.Ranked l K) : w'.Ranked l K where
  inRank s name := by
    rcases h.evolves.sequence_or s name with heq | hnone
    · rw [heq]
      exact (hr.inRank s name).imp fun hab c c' ha hb => hab c c' (h.has ha) (h.has hb)
    · rw [ScopeTree.sequence_of_none hnone]
      exact List.Pairwise.nil
  free hx hp hsame := Free.retain h (hr.free (h.outputOf hx) (h.mem_sequence hp) hsame)

end Retains

/-- If no definition is going to be moved, those of a cell are at its position. -/
theorem Housed.same_position (h : w.Housed l R [] K) (hconsistent : w.tree.Consistent)
    (hx : w.outputOf c s name = some x) (hp : (x, p) ∈ w.tree.sequence s name) :
    p.same (l.position c) = true := by
  obtain ⟨scope, hs, -⟩ := ScopeTree.exists_of_mem_sequence hp
  obtain ⟨q, hq, hwhere⟩ := h.placed (.inl hx) (by simp [hs])
  obtain ⟨-, rfl⟩ := ScopeTree.eq_of_mem_sequence hconsistent hp hq
  exact hwhere.resolve_right (by simp)

/-! ### A definition goes, moves or comes -/

theorem Housed.remove (h : w.Housed l ((s, x) :: R) M K) (hconsistent : w.tree.Consistent) :
    ({ w with tree := (w.tree.removeDefinition s x).2 } : Workspace).Housed l R M K where
  cell := h.cell
  owner := h.owner
  unique := h.unique
  owned {s' name y p} hy := by
    rw [ScopeTree.sequence_removeDefinition hconsistent] at hy
    have hne : (s', y) ≠ (s, x) ∧ (y, p) ∈ w.tree.sequence s' name := by
      split at hy
      · obtain ⟨hmem, hne⟩ := List.mem_filter.mp hy
        exact ⟨fun heq => by simp_all, hmem⟩
      · rename_i hs
        exact ⟨fun heq => hs (congrArg Prod.fst heq), hy⟩
    exact (h.owned hne.2).imp_right fun hmem => (List.mem_cons.mp hmem).resolve_left hne.1
  placed {c s' name y} hy hs' := by
    have hold := mt ((ScopeTree.sameShape_removeDefinition w.tree s x).get?_eq_none_iff s').mpr hs'
    obtain ⟨p, hp, hwhere⟩ := h.placed hy hold
    refine ⟨p, ?_, hwhere⟩
    rw [ScopeTree.sequence_removeDefinition hconsistent]
    split
    · rename_i heq
      refine List.mem_filter.mpr ⟨hp, ?_⟩
      rw [bne_iff_ne]
      rintro rfl
      exact h.unowned (heq ▸ List.mem_cons_self) hy
    · exact hp
  unowned hR := h.unowned (List.mem_cons_of_mem _ hR)

theorem Ranked.remove (h : w.Ranked l K) (hconsistent : w.tree.Consistent) (s : ScopeId)
    (x : SlotId) : ({ w with tree := (w.tree.removeDefinition s x).2 } : Workspace).Ranked l K := by
  have hsublist : ∀ s' name, ((w.tree.removeDefinition s x).2.sequence s' name).Sublist
      (w.tree.sequence s' name) := by
    intro s' name
    rw [ScopeTree.sequence_removeDefinition hconsistent]
    split
    · exact List.filter_sublist
    · exact List.Sublist.refl _
  exact ⟨fun s' name => (h.inRank s' name).sublist (hsublist s' name),
    fun hx hp => h.free hx ((hsublist _ _).mem hp)⟩

section Place

variable (hl : l.Proper)
include hl

/-- A cell at or before the position of another one comes before it, unless it is behind it at the
same position. -/
theorem Free.rank_le (hfree : w.Free l c s name) (hc : c ∈ l.order) (hc' : c' ∈ l.order)
    (hy : w.outputOf c' s name = some y) (hle : l.position c' ≤ l.position c) :
    l.rank c' ≤ l.rank c := by
  by_contra hrank
  have hge := hl.position_le hc hc' (Nat.not_le.mp hrank)
  exact hrank (hfree c' y hy (Position.same_iff.mpr ⟨hle, hge⟩))

/-- Where a definition of a cell joins a sequence, it comes in the order of the owners. -/
theorem InRank.joins {before after : List (SlotId × Position)} (hc : c ∈ l.order)
    (hlisted : ∀ {c'} {y : SlotId}, w.Has K c' s name y → c' ∈ l.order)
    (hunique : ∀ {c'}, w.Has K c' s name x → c' = c)
    (hpromise : ∀ {c'} {y : SlotId}, K = some ⟨c', s, name, y⟩ → c' = c)
    (hfree : w.Free l c s name) (hjoins : Joins (x, l.position c) before after)
    (hbefore : before.Pairwise fun a b => w.InRank l K s name a b) :
    after.Pairwise fun a b => w.InRank l K s name a b := by
  refine hjoins.pairwise hbefore (fun y _ hle c₁ c₂ h₁ h₂ hy _ => ?_)
    fun y _ hlt c₁ c₂ h₁ h₂ _ hy => ?_
  · rw [hunique h₂]
    rcases h₁ with hout | hpending
    · refine hfree.rank_le hl hc (hlisted (.inl hout)) hout ?_
      exact Position.le_trans (Position.same_iff.mp hy).2 hle
    · rw [hpromise hpending]
  · rw [hunique h₁]
    refine hl.rank_le hc (hlisted h₂) ?_
    exact Position.lt_trans_le hlt (Position.same_iff.mp hy).1

end Place

section Move

variable (hconsistent : w.tree.Consistent) (hx : w.outputOf c s name = some x)
include hconsistent hx

theorem Housed.move (h : w.Housed l R ((s, x) :: M) K) :
    ({ w with tree := (w.tree.moveDefinition s x (l.position c)).2 } : Workspace).Housed l R M K := by
  by_cases hs : w.tree.get? s = none
  · -- the scope is gone, and nothing happens
    have hnothing : (w.tree.moveDefinition s x (l.position c)).2 = w.tree := by
      unfold ScopeTree.moveDefinition ScopeTree.update
      rw [hs]
    rw [hnothing]
    refine { h with placed := fun {c' s' name' y} hy hs' => ?_ }
    obtain ⟨p, hp, hwhere⟩ := h.placed hy hs'
    refine ⟨p, hp, hwhere.imp_right fun hmem => (List.mem_cons.mp hmem).resolve_left ?_⟩
    rintro heq
    cases heq
    exact hs' hs
  · obtain ⟨old, hold, -⟩ := h.placed (.inl hx) hs
    obtain ⟨new, hnew, hmem⟩ := ScopeTree.mem_sequence_moveDefinition hconsistent hold (l.position c)
    have hshape : w.tree.SameShape (w.tree.moveDefinition s x (l.position c)).2 :=
      ScopeTree.sameShape_update _ _ _
    refine { h with owned := fun {s' name' y p} hy => ?_, placed := fun {c' s' name' y} hy hs' => ?_ }
    · rcases (hmem s' name' (y, p)).mp hy with ⟨heq, hself⟩ | ⟨-, hother⟩
      · cases heq
        cases hself
        exact .inl ⟨c, .inl hx⟩
      · exact h.owned hother
    · by_cases heq : (s', y) = (s, x)
      · cases heq
        obtain ⟨rfl, rfl⟩ := h.unique hy (.inl hx)
        exact ⟨new, (hmem s name' (x, new)).mpr (.inl ⟨rfl, rfl⟩), .inl hnew⟩
      · obtain ⟨p, hp, hwhere⟩ := h.placed hy (mt (hshape.get?_eq_none_iff s').mpr hs')
        exact ⟨p, (hmem s' name' (y, p)).mpr (.inr ⟨heq, hp⟩),
          hwhere.imp_right fun hin => (List.mem_cons.mp hin).resolve_left heq⟩

theorem Ranked.move (h : w.Ranked l K) (hh : w.Housed l R M K) (hl : l.Proper)
    (hpromise : ∀ k, K = some k → k.cell = c) :
    ({ w with tree := (w.tree.moveDefinition s x (l.position c)).2 } : Workspace).Ranked l K := by
  by_cases hs : w.tree.get? s = none
  · have hnothing : (w.tree.moveDefinition s x (l.position c)).2 = w.tree := by
      unfold ScopeTree.moveDefinition ScopeTree.update
      rw [hs]
    rw [hnothing]
    exact h
  obtain ⟨old, hold, -⟩ := hh.placed (.inl hx) hs
  obtain ⟨new, hnew, hmem⟩ := ScopeTree.mem_sequence_moveDefinition hconsistent hold (l.position c)
  refine ⟨fun s' name' => ?_, fun {c' s' name' y p} hy hp hsame => ?_⟩
  · by_cases hsame : old.same (l.position c) = true
    · show ((w.tree.moveDefinition s x (l.position c)).2.sequence s' name').Pairwise _
      rw [ScopeTree.sequence_moveDefinition_of_same hconsistent hold hsame]
      exact h.inRank s' name'
    · obtain ⟨hjoins, hothers⟩ :=
        ScopeTree.sequence_moveDefinition hconsistent hold (by simpa using hsame)
      by_cases heq : (s', name') = (s, name)
      · cases heq
        have hfree : w.Free l c s name := h.free hx hold (by simpa using hsame)
        exact InRank.joins (w := { w with tree := (w.tree.moveDefinition s x (l.position c)).2 }) hl
          (hh.owner (.inl hx)).1 (fun hy => (hh.owner hy).1)
          (fun hy => (hh.unique hy (.inl hx)).1) (fun hK => hpromise _ hK) hfree hjoins
          ((h.inRank s name).sublist List.filter_sublist)
      · show ((w.tree.moveDefinition s x (l.position c)).2.sequence s' name').Pairwise _
        rw [hothers s' name' heq]
        exact h.inRank s' name'
  · rcases (hmem s' name' (y, p)).mp hp with ⟨heq, hself⟩ | ⟨-, hother⟩
    · -- the definition is where it belongs
      cases heq
      cases hself
      obtain ⟨rfl, -⟩ := hh.unique (.inl hy) (.inl hx)
      rw [hnew] at hsame
      cases hsame
    · exact h.free hy hother hsame

end Move

section Add

variable {readers : List ReaderId} {tree : ScopeTree} (hconsistent : w.tree.Consistent)
  (hadd : w.tree.addDefinition s name (l.position c) = some (x, readers, tree))
include hconsistent hadd

/-- A cell does not have a definition before it is made. -/
theorem Housed.outputOf_ne_of_added (h : w.Housed l R M none) (c' : CellId) (name' : String) :
    w.outputOf c' s name' ≠ some x := by
  intro hx
  obtain ⟨-, -, hfresh⟩ := ScopeTree.sequence_addDefinition hconsistent hadd
  obtain ⟨scope, hs, -⟩ := Option.map_eq_some_iff.mp hadd
  obtain ⟨p, hp, -⟩ := h.placed (.inl hx) (by simp [hs])
  exact hfresh name' p hp

theorem Housed.add (h : w.Housed l [] [] none) (hc : c ∈ l.order) (hcell : w.cell? c = some cell)
    (hscope : cell.scope = some s) :
    ({ w with tree } : Workspace).Housed l [] [] (some ⟨c, s, name, x⟩) := by
  obtain ⟨hjoins, hothers, hfresh⟩ := ScopeTree.sequence_addDefinition hconsistent hadd
  have hnew := h.outputOf_ne_of_added hconsistent hadd
  have hmem : ∀ {s' n} {a : SlotId × Position}, a ∈ tree.sequence s' n ↔
      a = (x, l.position c) ∧ (s', n) = (s, name) ∨ a ∈ w.tree.sequence s' n := by
    intro s' n a
    by_cases heq : (s', n) = (s, name)
    · cases heq
      rw [hjoins.mem_iff]
      simp
    · rw [hothers s' n heq]
      simp [heq]
  refine ⟨h.cell, ?_, ?_, ?_, ?_, by simp⟩
  · rintro c' s' n y (hy | hy)
    · exact h.owner (.inl hy)
    · cases hy
      exact ⟨hc, cell, hcell, hscope⟩
  · rintro c₁ c₂ s' n₁ n₂ y (h₁ | h₁) (h₂ | h₂)
    · exact h.unique (.inl h₁) (.inl h₂)
    · cases h₂
      exact absurd h₁ (hnew c₁ n₁)
    · cases h₁
      exact absurd h₂ (hnew c₂ n₂)
    · cases h₁
      cases h₂
      exact ⟨rfl, rfl⟩
  · intro s' n y p hy
    rcases hmem.mp hy with ⟨hself, heq⟩ | hold
    · cases hself
      cases heq
      exact .inl ⟨c, .inr rfl⟩
    · obtain ⟨c', hc'⟩ | hR := h.owned hold
      · exact .inl ⟨c', .inl (has_none.mp hc')⟩
      · cases hR
  · rintro c' s' n y (hy | hy) hs'
    · have hold := mt ((ScopeTree.sameShape_addDefinition hadd).get?_eq_none_iff s').mpr hs'
      obtain ⟨p, hp, hwhere⟩ := h.placed (.inl hy) hold
      exact ⟨p, hmem.mpr (.inr hp), hwhere⟩
    · cases hy
      exact ⟨l.position c, hmem.mpr (.inl ⟨rfl, rfl⟩), .inl (Position.same_refl _)⟩

theorem Ranked.add (hconsistent' : tree.Consistent) (h : w.Ranked l none)
    (hh : w.Housed l [] [] none) (hl : l.Proper) (hc : c ∈ l.order) (hcell : w.cell? c = some cell)
    (hscope : cell.scope = some s) (hfree : w.Free l c s name) :
    ({ w with tree } : Workspace).Ranked l (some ⟨c, s, name, x⟩) := by
  obtain ⟨hjoins, hothers, hfresh⟩ := ScopeTree.sequence_addDefinition hconsistent hadd
  have hnew := hh.outputOf_ne_of_added hconsistent hadd
  -- the new definition is in none of the old sequences
  have hold : ∀ {s' n}, (w.tree.sequence s' n).Pairwise fun a b =>
      ({ w with tree } : Workspace).InRank l (some ⟨c, s, name, x⟩) s' n a b := by
    intro s' n
    have hout : ∀ {c'} {a : SlotId × Position}, a ∈ w.tree.sequence s' n →
        ({ w with tree } : Workspace).Has (some ⟨c, s, name, x⟩) c' s' n a.1 →
        w.Has none c' s' n a.1 := by
      rintro c' ⟨y, q⟩ ha (hy | hy)
      · exact .inl hy
      · cases hy
        exact absurd ha (hfresh _ q)
    exact (h.inRank s' n).imp_of_mem fun ha hb hab c₁ c₂ h₁ h₂ => hab c₁ c₂ (hout ha h₁) (hout hb h₂)
  refine ⟨fun s' n => ?_, fun {c' s' n y p} hy hp hsame => ?_⟩
  · by_cases heq : (s', n) = (s, name)
    · cases heq
      refine InRank.joins (w := { w with tree }) hl hc ?_ ?_ ?_ hfree hjoins hold
      · rintro c' y (hy | hy)
        · exact (hh.owner (.inl hy)).1
        · cases hy
          exact hc
      · rintro c' (hy | hy)
        · exact absurd hy (hnew c' name)
        · cases hy
          rfl
      · rintro c' y hy
        cases hy
        rfl
    · show (tree.sequence s' n).Pairwise _
      rw [hothers s' n heq]
      exact hold
  · rw [(hh.add hconsistent hadd hc hcell hscope).same_position hconsistent' hy hp] at hsame
    cases hsame

end Add

/-! ### A cell changes -/

theorem outputOf_putCell : (w.putCell c cell').outputOf c' s name = some x ↔
    c' = c ∧ cell'.outputs[name]? = some ⟨s, x⟩ ∨ c' ≠ c ∧ w.outputOf c' s name = some x := by
  rw [outputOf_eq_some_iff, outputOf_eq_some_iff, cell?, putCell, lookup_insert]
  by_cases hc : c = c'
  · simp [hc]
  · simp [hc, Ne.symm hc, cell?]

/-- A cell takes over the definition that is made for it. -/
theorem has_keep (hnew : cell.outputs[name]? = none) (hcell : w.cell? c = some cell) :
    (w.putCell c { cell with outputs := cell.outputs.insert name ⟨s, x⟩ }).Has none c' s' name' y ↔
      w.Has (some ⟨c, s, name, x⟩) c' s' name' y := by
  rw [has_none, outputOf_putCell, lookup_insert, Has]
  by_cases hc : c' = c
  · rw [hc, outputOf_of_cell? hcell]
    by_cases hname : name = name'
    · subst hname
      simp [hnew]
    · simp [hname]
  · simp [hc, Ne.symm hc]

section Keep

variable (hcell : w.cell? c = some cell) (hnew : cell.outputs[name]? = none)
include hcell hnew

theorem Housed.keep (h : w.Housed l R M (some ⟨c, s, name, x⟩)) :
    (w.putCell c { cell with outputs := cell.outputs.insert name ⟨s, x⟩ }).Housed l R M none := by
  have hseat : ∀ {c' : CellId} {found : Cell}, w.cell? c' = some found → ∃ found',
      (w.putCell c { cell with outputs := cell.outputs.insert name ⟨s, x⟩ }).cell? c' = some found' ∧
        found'.position = found.position ∧ found'.scope = found.scope := by
    intro c' found hfound
    rw [cell?, putCell, lookup_insert]
    by_cases hc : c = c'
    · rw [← hc, hcell] at hfound
      cases hfound
      exact ⟨_, if_pos hc, rfl, rfl⟩
    · exact ⟨found, (if_neg hc).trans hfound, rfl, rfl⟩
  refine ⟨fun hc => ?_, fun hx => ?_, fun hx hx' => ?_, fun hp => ?_, fun hx => ?_, fun hR hx => ?_⟩
  · obtain ⟨hheld, found, hfound, hposition⟩ := h.cell hc
    obtain ⟨found', hfound', hposition', -⟩ := hseat hfound
    exact ⟨hheld, found', hfound', hposition'.trans hposition⟩
  · obtain ⟨hc, found, hfound, hscope⟩ := h.owner ((has_keep hnew hcell).mp hx)
    obtain ⟨found', hfound', -, hscope'⟩ := hseat hfound
    exact ⟨hc, found', hfound', hscope'.trans hscope⟩
  · exact h.unique ((has_keep hnew hcell).mp hx) ((has_keep hnew hcell).mp hx')
  · exact (h.owned hp).imp_left (Exists.imp fun c' => (has_keep hnew hcell).mpr)
  · exact h.placed ((has_keep hnew hcell).mp hx)
  · exact h.unowned hR ((has_keep hnew hcell).mp hx)

theorem Ranked.keep (hconsistent : w.tree.Consistent) (h : w.Ranked l (some ⟨c, s, name, x⟩))
    (hh : w.Housed l R [] (some ⟨c, s, name, x⟩)) :
    (w.putCell c { cell with outputs := cell.outputs.insert name ⟨s, x⟩ }).Ranked l none where
  inRank s' n := (h.inRank s' n).imp fun hab c₁ c₂ h₁ h₂ =>
    hab c₁ c₂ ((has_keep hnew hcell).mp h₁) ((has_keep hnew hcell).mp h₂)
  free hx hp hsame := by
    rw [(hh.keep hcell hnew).same_position hconsistent hx hp] at hsame
    cases hsame

end Keep

section Reseat

variable (haround : l.Around c l')
  (hown : ∀ {s : ScopeId} {x : SlotId}, (s, x) ∈ M → ∃ name, w.outputOf c s name = some x)
  (houtputs : ∀ {s : ScopeId} {name : String} {x : SlotId},
    cell'.outputs[name]? = some ⟨s, x⟩ → w.outputOf c s name = some x)
include haround hown houtputs

/-- A cell changes, and nothing else. It gives up some of its definitions, and the others are going
to be moved. -/
theorem Housed.reseat (h : w.Housed l [] M none) (hc : c ∈ l'.order) (hheld : c ∈ w.heldCells)
    (hposition : cell'.position = l'.position c)
    (hscope : ∀ {s : ScopeId} {name : String} {x : SlotId},
      cell'.outputs[name]? = some ⟨s, x⟩ → cell'.scope = some s)
    (hkept : ∀ {s : ScopeId} {name : String} {x : SlotId},
      cell'.outputs[name]? = some ⟨s, x⟩ → (s, x) ∈ M')
    (hgiven : ∀ {s : ScopeId} {x : SlotId}, (s, x) ∈ R' ↔
      ∃ name, w.outputOf c s name = some x ∧ cell'.outputs[name]? ≠ some ⟨s, x⟩) :
    (w.putCell c cell').Housed l' R' M' none := by
  have hback : ∀ {c' s name x}, (w.putCell c cell').Has none c' s name x →
      w.Has none c' s name x := by
    intro c' s name x hx
    rcases outputOf_putCell.mp (has_none.mp hx) with ⟨rfl, ho⟩ | ⟨-, hold⟩
    · exact .inl (houtputs ho)
    · exact .inl hold
  have hother : ∀ {c' : CellId}, c' ≠ c → (w.putCell c cell').cell? c' = w.cell? c' := by
    intro c' hne
    rw [cell?, putCell, lookup_insert, if_neg (Ne.symm hne)]
    rfl
  have hself : (w.putCell c cell').cell? c = some cell' := lookup_insert_self _ _ _
  refine ⟨fun {c'} hc' => ?_, fun {c' s name x} hx => ?_, fun hx hx' => h.unique (hback hx) (hback hx'),
    fun {s name x p} hp => ?_, fun {c' s name x} hx hs => ?_, fun {c' s name x} hR hx => ?_⟩
  · by_cases hne : c' = c
    · rw [hne]
      exact ⟨hheld, cell', hself, hposition⟩
    · rw [hother hne, haround.position c' hne]
      exact h.cell ((haround.mem_iff hne).mp hc')
  · rcases outputOf_putCell.mp (has_none.mp hx) with ⟨rfl, ho⟩ | ⟨hne, hold⟩
    · exact ⟨hc, cell', hself, hscope ho⟩
    · rw [hother hne, haround.mem_iff hne]
      exact h.owner (.inl hold)
  · obtain ⟨c', hc'⟩ | hR := h.owned hp
    · have hout := has_none.mp hc'
      by_cases hne : c' = c
      · rw [hne] at hout
        by_cases ho : cell'.outputs[name]? = some ⟨s, x⟩
        · exact .inl ⟨c, .inl (outputOf_putCell.mpr (.inl ⟨rfl, ho⟩))⟩
        · exact .inr (hgiven.mpr ⟨name, hout, ho⟩)
      · exact .inl ⟨c', .inl (outputOf_putCell.mpr (.inr ⟨hne, hout⟩))⟩
    · cases hR
  · obtain ⟨p, hp, hwhere⟩ := h.placed (hback hx) hs
    refine ⟨p, hp, ?_⟩
    rcases outputOf_putCell.mp (has_none.mp hx) with ⟨rfl, ho⟩ | ⟨hne, hold⟩
    · exact .inr (hkept ho)
    · rw [haround.position c' hne]
      refine .inl (hwhere.resolve_right fun hM => ?_)
      obtain ⟨name', hx'⟩ := hown hM
      exact hne (h.unique (.inl hold) (.inl hx')).1
  · obtain ⟨name', hx', hnot⟩ := hgiven.mp hR
    obtain ⟨rfl, rfl⟩ := h.unique (hback hx) (.inl hx')
    rcases outputOf_putCell.mp (has_none.mp hx) with ⟨-, ho⟩ | ⟨hne, -⟩
    · exact hnot ho
    · exact hne rfl

/-- The definitions that the cell keeps stay in their order if the layout does; otherwise they are
elsewhere, and free to be moved. -/
theorem Ranked.reseat (hconsistent : w.tree.Consistent) (h : w.Ranked l none)
    (hh : w.Housed l [] M none)
    (hmoves : ∀ {s : ScopeId} {name : String} {x : SlotId} {p : Position},
      cell'.outputs[name]? = some ⟨s, x⟩ → (x, p) ∈ w.tree.sequence s name →
        l' = l ∨ p.same (l'.position c) = false ∧ l'.Last c) :
    (w.putCell c cell').Ranked l' none := by
  have hback : ∀ {c' s name x}, (w.putCell c cell').outputOf c' s name = some x →
      w.outputOf c' s name = some x := by
    intro c' s name x hx
    rcases outputOf_putCell.mp hx with ⟨rfl, ho⟩ | ⟨-, hold⟩
    · exact houtputs ho
    · exact hold
  refine ⟨fun s name => ?_, fun {c' s name x p} hx hp hsame => ?_⟩
  · refine (h.inRank s name).imp_of_mem fun {a b} ha hb hab c₁ c₂ h₁ h₂ ha₁ hb₂ => ?_
    have hout₁ := has_none.mp h₁
    have hout₂ := has_none.mp h₂
    -- a definition of the cell counts only if the layout is as before
    have hsettled : ∀ {c₀ : CellId} {d : SlotId × Position}, d ∈ w.tree.sequence s name →
        (w.putCell c cell').outputOf c₀ s name = some d.1 → d.2.same (l'.position c₀) = true →
        l' = l ∨ c₀ ≠ c := by
      intro c₀ d hd hx hsame
      rcases outputOf_putCell.mp hx with ⟨rfl, ho⟩ | ⟨hne, -⟩
      · refine .inl ((hmoves ho hd).resolve_right fun ⟨hmoved, _⟩ => ?_)
        rw [hsame] at hmoved
        cases hmoved
      · exact .inr hne
    have hrank := hab c₁ c₂ (.inl (hback hout₁)) (.inl (hback hout₂))
    rcases hsettled ha hout₁ ha₁ with rfl | hne₁
    · exact hrank ha₁ hb₂
    rcases hsettled hb hout₂ hb₂ with rfl | hne₂
    · exact hrank ha₁ hb₂
    rw [haround.position c₁ hne₁] at ha₁
    rw [haround.position c₂ hne₂] at hb₂
    exact haround.rank_le hne₁ hne₂ (hh.owner (.inl (hback hout₁))).1 (hrank ha₁ hb₂)
  · rcases outputOf_putCell.mp hx with ⟨rfl, ho⟩ | ⟨hne, hold⟩
    · rcases hmoves ho hp with rfl | ⟨-, hlast⟩
      · exact fun c₁ y hy => h.free (houtputs ho) hp hsame c₁ y (hback hy)
      · intro c₁ y hy hsame₁
        by_cases hne : c₁ = c'
        · rw [hne]
        · exact hlast c₁ ((haround.mem_iff hne).mpr (hh.owner (.inl (hback hy))).1) hsame₁
    · -- the definitions of the others are where they belong
      rw [haround.position c' hne] at hsame
      obtain ⟨scope, hs, -⟩ := ScopeTree.exists_of_mem_sequence hp
      obtain ⟨q, hq, hwhere⟩ := hh.placed (.inl hold) (by simp [show w.tree.get? s = some scope from hs])
      obtain ⟨-, rfl⟩ := ScopeTree.eq_of_mem_sequence hconsistent hp hq
      rcases hwhere with heq | hM
      · rw [heq] at hsame
        cases hsame
      · obtain ⟨name', hx'⟩ := hown hM
        exact absurd (hh.unique (.inl hold) (.inl hx')).1 hne

end Reseat

end Workspace

end MathCanvas
