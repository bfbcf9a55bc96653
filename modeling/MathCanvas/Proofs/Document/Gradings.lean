import MathCanvas.Proofs.Document.Enlisted
import MathCanvas.Proofs.Number.Magnitude
import MathCanvas.Proofs.Workspace.Enrolling

/-!
# Cells in the order of the document

Values are passed on from cells to later ones in their scope, and to scopes that start later, and
from scopes to the cells and scopes in them. If grades fall in the same way (`Workspace.Arranged`),
and the cells stand in different places (`Workspace.Spaced`), whoever is told has a lower grade than
whoever tells (`Workspace.Arranged.graded`).
-/

namespace MathCanvas

namespace Workspace

variable {w w' : Workspace} {g : Grading} {c c' : CellId} {cell cell' : Cell} {name : String}
  {s : ScopeId} {x : Nat} {y : Position} {role : Role} {r : ReaderId} {l : Listener}

/-- The cells stand in different places, and there is a place before each of them. -/
structure Spaced (w : Workspace) : Prop where
  apart : ∀ {c c' : CellId} {cell cell' : Cell}, w.cell? c = some cell → w.cell? c' = some cell' →
    cell.position.same cell'.position = true → c = c'
  interior : ∀ {c : CellId} {cell : Cell}, w.cell? c = some cell → cell.position.Interior

/-- Cells that are left stand in different places still. -/
theorem Spaced.of_positions (h : w.Spaced) (hcells : ∀ {c : CellId} {cell' : Cell},
    w'.cell? c = some cell' → ∃ cell, w.cell? c = some cell ∧ cell'.position = cell.position) :
    w'.Spaced := by
  constructor
  · intro c c' cell cell' hcell hcell' hsame
    obtain ⟨before, hbefore, hposition⟩ := hcells hcell
    obtain ⟨before', hbefore', hposition'⟩ := hcells hcell'
    rw [hposition, hposition'] at hsame
    exact h.apart hbefore hbefore' hsame
  · intro c cell hcell
    obtain ⟨before, hbefore, hposition⟩ := hcells hcell
    rw [hposition]
    exact h.interior hbefore

/-- Grades fall in the order of the document, and inwards. -/
structure Arranged (g : Grading) (w : Workspace) : Prop where
  cells : ∀ {c c' : CellId} {cell cell' : Cell} {s : ScopeId}, w.cell? c = some cell →
    w.cell? c' = some cell' → cell.scope = some s → cell'.scope = some s →
    cell.position < cell'.position → g.cell c' < g.cell c
  scopes : ∀ {c : CellId} {cell : Cell} {s s' : ScopeId} {scope : Scope}, w.cell? c = some cell →
    cell.scope = some s → w.tree.get? s' = some scope → scope.ancestors.head? = some s →
    cell.position ≤ scope.start → g.scope s' < g.cell c
  within : ∀ {c : CellId} {cell : Cell} {s : ScopeId}, w.cell? c = some cell →
    cell.scope = some s → g.cell c < g.scope s
  nested : ∀ {s s' : ScopeId} {scope : Scope}, w.tree.get? s' = some scope →
    scope.ancestors.head? = some s → g.scope s' < g.scope s

/-! ### Grades by scopes -/

/-- What is counted more widely is more, if something is counted that was not before. -/
theorem countP_lt_of_mem {α : Type} {p q : α → Bool} {l : List α} {a : α}
    (himp : ∀ b, p b = true → q b = true) (ha : a ∈ l) (hp : p a = false) (hq : q a = true) :
    l.countP p < l.countP q := by
  obtain ⟨before, after, rfl⟩ := List.append_of_mem ha
  have hbefore : before.countP p ≤ before.countP q := List.countP_mono_left fun b _ => himp b
  have hafter : after.countP p ≤ after.countP q := List.countP_mono_left fun b _ => himp b
  rw [List.countP_append, List.countP_append, List.countP_cons_of_neg (by simp [hp]),
    List.countP_cons_of_pos hq]
  omega

/-- How many cells stand at later positions. -/
def laterCells (w : Workspace) (p : Position) : Nat :=
  w.cells.values.countP fun cell => decide (p < cell.position)

/-- Before a cell there is at least one more cell to come. -/
theorem laterCells_lt {p : Position} (hcell : w.cell? c = some cell) (hp : p < cell.position) :
    w.laterCells cell.position < w.laterCells p := by
  have hmem : cell ∈ w.cells.values := (mem_values_iff_lookup _ _).mpr ⟨c, hcell⟩
  refine countP_lt_of_mem (fun other hother => ?_) hmem ?_ (decide_eq_true hp)
  · rw [decide_eq_true_eq] at hother ⊢
    exact Position.lt_trans_le hp (Position.le_of_lt hother)
  · exact decide_eq_false (Position.lt_irrefl _)

theorem laterCells_le (w : Workspace) (p : Position) : w.laterCells p ≤ w.cells.values.length :=
  List.countP_le_length

/-- Inner scopes come later, and so do later cells of a scope. -/
def inward (w : Workspace) : Grading where
  cell c := match w.cell? c with
    | some cell => grade (w.tree.nextId - cell.scope.getD 0) (w.laterCells cell.position)
    | none => grade 0 0
  scope s := grade (w.tree.nextId - s) (w.cells.values.length + 1)

theorem cell_inward (hcell : w.cell? c = some cell) (hs : cell.scope = some s) :
    w.inward.cell c = grade (w.tree.nextId - s) (w.laterCells cell.position) := by
  rw [inward]
  simp only [hcell, hs, Option.getD_some]

theorem arranged_inward (htied : w.tree.WellTied) : w.Arranged w.inward where
  cells hcell hcell' hs hs' hlt := by
    rw [cell_inward hcell hs, cell_inward hcell' hs']
    exact grade_lt_iff.mpr (.inr ⟨rfl, laterCells_lt hcell' hlt⟩)
  scopes {c cell s s' scope} hcell hs hs' hparent _ := by
    rw [cell_inward hcell hs]
    obtain ⟨further, hancestors⟩ := List.head?_eq_some_iff.mp hparent
    have hlt : s < s' := (htied.parent hs' hancestors).1
    have hbound : s' < w.tree.nextId := htied.id_lt hs'
    exact grade_lt_iff.mpr (.inl (Nat.sub_lt_sub_left (Nat.lt_trans hlt hbound) hlt))
  within {c cell s} hcell hs := by
    rw [cell_inward hcell hs]
    have hle := w.laterCells_le cell.position
    exact grade_lt_iff.mpr (.inr ⟨rfl, by omega⟩)
  nested {s s' scope} hs' hparent := by
    obtain ⟨further, hancestors⟩ := List.head?_eq_some_iff.mp hparent
    have hlt : s < s' := (htied.parent hs' hancestors).1
    have hbound : s' < w.tree.nextId := htied.id_lt hs'
    exact grade_lt_iff.mpr (.inl (Nat.sub_lt_sub_left (Nat.lt_trans hlt hbound) hlt))

/-! ### Grades by positions -/

/-- Whether a cell is in a scope, or in one inside. -/
def encloses (w : Workspace) (s : ScopeId) (cell : Cell) : Bool :=
  cell.scope.any fun q => q == s || (w.tree.ancestors q).contains s

theorem encloses_iff (hs : cell.scope = some s) {p : ScopeId} :
    w.encloses p cell = true ↔ s = p ∨ p ∈ w.tree.ancestors s := by
  simp [encloses, hs]

/-- How many cells stand at the first one inside a scope, or later. -/
def cellsFrom (w : Workspace) (s : ScopeId) : Nat :=
  w.cells.values.countP fun cell =>
    w.cells.values.any fun inner => w.encloses s inner && decide (inner.position ≤ cell.position)

/-- Later cells come later, whatever scopes they are in, and a scope comes just before the cells
inside. -/
def inOrder (w : Workspace) : Grading where
  cell c := match w.cell? c with
    | some cell => grade (w.laterCells cell.position) (w.tree.nextId + 1)
    | none => grade 0 0
  scope s := grade (w.cellsFrom s) (w.tree.nextId - s)

theorem cell_inOrder (hcell : w.cell? c = some cell) :
    w.inOrder.cell c = grade (w.laterCells cell.position) (w.tree.nextId + 1) := by
  rw [inOrder]
  simp only [hcell]

theorem inOrder_lt (hcell : w.cell? c = some cell) (hcell' : w.cell? c' = some cell')
    (hlt : cell.position < cell'.position) : w.inOrder.cell c' < w.inOrder.cell c := by
  rw [cell_inOrder hcell, cell_inOrder hcell']
  exact grade_lt_iff.mpr (.inl (laterCells_lt hcell' hlt))

/-- If the cells inside a scope stand at its start or later, grades by positions fall inwards. -/
theorem arranged_inOrder (htied : w.tree.WellTied) (hspaced : w.Spaced)
    (hstart : ∀ {c : CellId} {cell : Cell} {s : ScopeId} {scope : Scope}, w.cell? c = some cell →
      w.encloses s cell = true → w.tree.get? s = some scope → scope.ancestors ≠ [] →
      scope.start ≤ cell.position) : w.Arranged w.inOrder where
  cells hcell hcell' _ _ hlt := inOrder_lt hcell hcell' hlt
  scopes {c cell s s' scope} hcell hs hs' hparent hle := by
    obtain ⟨further, hancestors⟩ := List.head?_eq_some_iff.mp hparent
    rw [cell_inOrder hcell]
    have hfew : w.cellsFrom s' ≤ w.laterCells cell.position := by
      refine List.countP_mono_left fun other _ hother => ?_
      obtain ⟨inner, hmem, hinner⟩ := List.any_eq_true.mp hother
      rw [Bool.and_eq_true, decide_eq_true_eq] at hinner
      obtain ⟨c', hcell'⟩ := (mem_values_iff_lookup _ _).mp hmem
      have hafter : cell.position ≤ inner.position :=
        Position.le_trans hle
          (hstart hcell' hinner.1 hs' (by rw [hancestors]; exact List.cons_ne_nil _ _))
      refine decide_eq_true (Position.lt_trans_le ?_ hinner.2)
      by_contra hnot
      -- the cell would be inside a scope that is inside its own
      obtain rfl := hspaced.apart hcell hcell'
        (Position.same_iff.mpr ⟨hafter, Position.not_lt.mp hnot⟩)
      cases hcell.symm.trans hcell'
      have hlt : s < s' := (htied.parent hs' hancestors).1
      rcases (encloses_iff hs).mp hinner.1 with rfl | hmem
      · exact Nat.lt_irrefl _ hlt
      · cases hget : w.tree.get? s with
        | none => simp [ScopeTree.ancestors, hget] at hmem
        | some around =>
          rw [ScopeTree.ancestors_of_get? hget] at hmem
          exact Nat.lt_asymm hlt (htied.lt_of_mem_ancestors hget hmem)
    exact grade_lt_iff.mpr (by omega)
  within {c cell s} hcell hs := by
    rw [cell_inOrder hcell]
    have hmem : cell ∈ w.cells.values := (mem_values_iff_lookup _ _).mpr ⟨c, hcell⟩
    have hown : w.encloses s cell = true := (encloses_iff hs).mpr (.inl rfl)
    have hmany : w.laterCells cell.position < w.cellsFrom s := by
      refine countP_lt_of_mem (fun other hother => ?_) hmem
        (decide_eq_false (Position.lt_irrefl _)) ?_
      · rw [decide_eq_true_eq] at hother
        exact List.any_eq_true.mpr ⟨cell, hmem, by simp [hown, Position.le_of_lt hother]⟩
      · exact List.any_eq_true.mpr ⟨cell, hmem, by simp [hown, Position.le_refl]⟩
    exact grade_lt_iff.mpr (.inl hmany)
  nested {s s' scope} hs' hparent := by
    obtain ⟨further, hancestors⟩ := List.head?_eq_some_iff.mp hparent
    have hlt : s < s' := (htied.parent hs' hancestors).1
    have hbound : s' < w.tree.nextId := htied.id_lt hs'
    have hfew : w.cellsFrom s' ≤ w.cellsFrom s := by
      refine List.countP_mono_left fun other _ hother => ?_
      obtain ⟨inner, hmem, hinner⟩ := List.any_eq_true.mp hother
      rw [Bool.and_eq_true] at hinner
      refine List.any_eq_true.mpr ⟨inner, hmem, Bool.and_eq_true_iff.mpr ⟨?_, hinner.2⟩⟩
      -- what is inside the inner scope is inside the outer one
      obtain ⟨q, hq, hinside⟩ := (Option.any_eq_true _ _).mp hinner.1
      have hs : s ∈ w.tree.ancestors s' := by
        rw [ScopeTree.ancestors_of_get? hs', hancestors]
        exact List.mem_cons_self
      refine (encloses_iff hq).mpr (.inr ?_)
      rcases (encloses_iff hq).mp hinner.1 with rfl | hmem'
      · exact hs
      · cases hget : w.tree.get? q with
        | none => simp [ScopeTree.ancestors, hget] at hmem'
        | some innermost =>
          rw [ScopeTree.ancestors_of_get? hget] at hmem' ⊢
          rw [ScopeTree.ancestors_of_get? hs'] at hs
          exact htied.mem_ancestors_trans hget hmem' hs' hs
    exact grade_lt_iff.mpr (hfew.lt_or_eq.imp_right fun heq =>
      ⟨heq, Nat.sub_lt_sub_left (Nat.lt_trans hlt hbound) hlt⟩)

/-! ### Grades and heights -/

/-- Every task on the agenda has a height. -/
def Bounded (g : Grading) (w : Workspace) : Prop := ∀ task ∈ w.agenda, ∃ k, w.Under g task k

/-- What is moved belongs to a cell that is suspended. -/
theorem Bounded.not_awaits (h : w.Bounded g) (hcell : w.cell? c = some cell)
    (hawake : cell.suspended = false) (has : cell.Has name s x role) :
    ¬Awaits w.agenda c s x role := by
  rintro (hmem | ⟨y, hmem⟩)
  · obtain ⟨k, hunder⟩ := h _ hmem
    rw [hunder.1 cell hcell] at hawake
    cases hawake
  · obtain ⟨k, hunder⟩ := h _ hmem
    have hwithholds : w.Withholds s x role := by
      cases role <;> exact hunder.1
    rw [hwithholds c cell name hcell has] at hawake
    cases hawake

/-- A cell that is not suspended has its inputs and outputs where they belong. -/
theorem Bounded.entry (h : w.Bounded g) (henlisted : w.Enlisted) (hcell : w.cell? c = some cell)
    (hawake : cell.suspended = false) (has : cell.Has name s x role) :
    cell.scope = some s ∧
      ∃ y, w.tree.Enrolled s x name y role ∧ Aims w.agenda c cell name y role := by
  obtain ⟨hs, y, hy, -, haims⟩ := henlisted.posted.entry hcell has
  exact ⟨hs, y, hy, haims (h.not_awaits hcell hawake has)⟩

/-- Whoever listens to a reader in a scope, and does something about it, is a cell that has it as an
input, or a scope inside, as long as the reader is not about to go. -/
theorem listener_cases (hsecluded : w.Secluded) (hstays : .removeReader s r ∉ w.agenda)
    (hl : l ∈ w.tree.listeners s r) (hhears : w.Hears l) :
    (∃ c name cell, l = .input c name ∧ w.cell? c = some cell ∧ cell.suspended = false ∧
      cell.Has name s r .reader) ∨
    ∃ s' name scope, l = .importer s' name ∧ w.tree.get? s' = some scope ∧
      scope.ancestors.head? = some s ∧ w.tree.anchor? s r = some (name, scope.start) := by
  have htied := hsecluded.ready.tied
  cases l with
  | client n => exact hhears.elim
  | input c name =>
    obtain ⟨cell, hcell, hawake⟩ := hhears
    refine .inl ⟨c, name, cell, rfl, hcell, hawake, ?_⟩
    refine (hsecluded.attuned.current hl hcell).resolve_right ?_
    rintro ⟨-, soon, later, hagenda, -⟩
    exact hstays (by rw [hagenda]; simp)
  | importer s' name =>
    have hfeeds : w.tree.Feeds s r s' name := by
      cases hs : w.tree.get? s with
      | none => simp [ScopeTree.listeners, hs] at hl
      | some scope =>
        rw [ScopeTree.listeners_of_get? hs] at hl
        cases hls : scope.readerListeners[r]? with
        | none => simp [hls] at hl
        | some ls =>
          rw [hls] at hl
          exact htied.feeds hs hls hl
    obtain ⟨around, scope, haround, hs', hanchor, -⟩ := htied.fed hfeeds
    obtain ⟨scope', hs'', hparent, -⟩ := hfeeds
    cases hs'.symm.trans hs''
    exact .inr ⟨s', name, scope, rfl, hs', hparent,
      by rw [ScopeTree.anchor?_of_get? haround, hanchor]⟩

/-- Whoever is told has a lower grade than whoever tells, as long as no reader is about to go. -/
theorem Arranged.graded (h : w.Arranged g) (hbounded : w.Bounded g) (henlisted : w.Enlisted)
    (hsecluded : w.Secluded) (hspaced : w.Spaced)
    (hstays : ∀ s r, .removeReader s r ∉ w.agenda) : w.Graded g := by
  have hconsistent : w.tree.Consistent := hsecluded.ready.tied.allConsistent
  refine ⟨fun {c cell name s x r l} hcell hawake has hbinding hl hhears => ?_,
    fun {s scope name x r l} hs himporter hbinding hl hhears => ?_⟩
  · obtain ⟨hs, y, hy, haims⟩ := hbounded.entry henlisted hcell hawake has
    obtain rfl : y = cell.position := haims
    rcases listener_cases hsecluded (hstays s r) hl hhears with
      ⟨c', n, cell', rfl, hcell', hawake', has'⟩ | ⟨s', n, scope, rfl, hs', hparent, hanchor⟩
    · obtain ⟨hs', y', ⟨hanchor, -⟩, hbefore, hthere⟩ :=
        hbounded.entry henlisted hcell' hawake' has'
      obtain ⟨rfl, hle⟩ := ScopeTree.le_of_binding? hconsistent hanchor hbinding hy
      refine h.cells hcell hcell' hs hs' ?_
      by_cases hwrites : Writes w.agenda c' cell' name
      · rw [hbefore hwrites] at hle
        exact (Position.lt_iff_le_justBefore (hspaced.interior hcell')).mpr hle
      · rw [hthere hwrites] at hle
        by_contra hlt
        -- a cell that has a definition of the name reads it from just before itself
        obtain rfl := hspaced.apart hcell hcell'
          (Position.same_iff.mpr ⟨hle, Position.not_lt.mp hlt⟩)
        cases hcell.symm.trans hcell'
        have hdefined : cell.outputs[name]? = some ⟨s, x⟩ := has
        exact hwrites (.inl (by rw [hdefined]; rintro ⟨⟩))
    · obtain ⟨rfl, hle⟩ := ScopeTree.le_of_binding? hconsistent hanchor hbinding hy
      exact h.scopes hcell hs hs' hparent hle
  · rcases listener_cases hsecluded (hstays s r) hl hhears with
      ⟨c', n, cell', rfl, hcell', hawake', has'⟩ | ⟨s', n, scope', rfl, hs', hparent, -⟩
    · exact h.within hcell' (hbounded.entry henlisted hcell' hawake' has').1
    · exact h.nested hs' hparent

end Workspace

end MathCanvas
