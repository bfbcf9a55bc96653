import MathCanvas.Proofs.Document.Cascade
import MathCanvas.Proofs.Workspace.Hearing
import MathCanvas.Proofs.Workspace.Ledger
import MathCanvas.Proofs.Workspace.Tariffs

/-!
# Whoever is told is an heir

While a change spreads from a cell `origin`, the other cells stay as they are but for values
(`Workspace.Resembles`), and are in step with their expressions (`Workspace.Spreading.wants_iff`).
So the cells that listen to readers which observe a definition are those that inherit its value
(`Workspace.Spreading.inherits`).
-/

namespace MathCanvas

namespace ScopeTree

variable {t : ScopeTree} {s : ScopeId} {r : ReaderId} {x x' : SlotId} {n name : String}
  {y z z' : Position}

/-- A definition that is observed is behind all others up to the reader. -/
theorem le_of_mem_sequence (h : t.Consistent) (hr : t.anchor? s r = some (name, y))
    (hobserved : t.binding? s r = some x) (hx : (x, z) ∈ t.sequence s n)
    (hx' : (x', z') ∈ t.sequence s name) (hle : z' ≤ y) : z' ≤ z := by
  obtain ⟨scope, x₀, hs, hobserved', hlast⟩ := exists_binding? h hr
  obtain rfl := Option.some.inj (hobserved.symm.trans hobserved')
  rw [sequence_of_get? hs] at hx hx'
  obtain ⟨hmem, hplace⟩ := Bindings.mem_sequence_iff.mp hx
  obtain ⟨hmem', hplace'⟩ := Bindings.mem_sequence_iff.mp hx'
  obtain ⟨before, hfilter⟩ := List.getLast?_eq_some_iff.mp hlast
  have hup : x' ∈ before ++ [x] := by
    rw [← hfilter]
    exact List.mem_filter.mpr ⟨hmem', Bindings.isUpTo_eq_true_iff.mpr
      ⟨_, hplace', SlotPlace.placed_le_placed.mpr hle⟩⟩
  have hordered := ((h hs).ordered name).filter (scope.bindings.isUpTo (.placed y))
  rw [hfilter, List.pairwise_append] at hordered
  rcases List.mem_append.mp hup with hbefore | hself
  · exact SlotPlace.placed_le_placed.mp
      (hordered.2.2 x' hbefore x List.mem_cons_self _ _ hplace' hplace)
  · obtain rfl := List.mem_singleton.mp hself
    cases hplace.symm.trans hplace'
    exact Position.le_refl z

end ScopeTree

namespace Workspace

variable {v w w' : Workspace} {origin c c' : CellId} {cell cell' : Cell} {s q : ScopeId}
  {name n : String} {x : SlotId} {r : ReaderId} {k : Role}

/-- The cells of one workspace are those of another one, up to values. -/
structure Resembles (v w : Workspace) : Prop where
  cells : ∀ {c : CellId} {cell : Cell}, w.cell? c = some cell → ∃ first, v.cell? c = some first ∧
    cell.position = first.position ∧ cell.scope = first.scope ∧
    cell.expression.blanked = first.expression.blanked
  present : ∀ {c : CellId}, v.cell? c ≠ none → w.cell? c ≠ none

/-- A change spreads from a cell through its scope. -/
structure Spreading (v : Workspace) (origin : CellId) (s : ScopeId) (w : Workspace) : Prop where
  cascading : w.Cascading
  supplies : w.Supplies w.agenda
  solo : w.tree.Solo
  bounded : ∃ g, w.Bounded g
  resembles : v.Resembles w
  /-- Only the cell that the change comes from can be suspended. -/
  awake : ∀ {c : CellId} {cell : Cell}, w.cell? c = some cell → c ≠ origin → cell.suspended = false
  housed : ∀ {c : CellId} {cell : Cell} {q : ScopeId}, w.cell? c = some cell →
    cell.scope = some q → q = s
  settled : ∀ c scope, .cell c (.enter scope) ∉ w.agenda

namespace Spreading

variable (h : Spreading v origin s w)
include h

/-- A cell that is not suspended has what it wants. -/
theorem wants_iff (hcell : w.cell? c = some cell) (hawake : cell.suspended = false)
    (hattached : cell.scope ≠ none) (name : String) (k : Role) :
    name ∈ cell.wants k ↔ ∃ q x, cell.Has name q x k := by
  obtain ⟨g, hbounded⟩ := h.bounded
  have hrun : ∀ {driven : CellTask}, .cell c driven ∈ w.agenda → ¬w.Suspended c :=
    fun _ hsuspended => by rw [hsuspended cell hcell] at hawake; cases hawake
  rcases h.supplies c cell hcell with ⟨driven, hmem, hrank⟩ | hgets
  · obtain ⟨k', hunder⟩ := hbounded _ hmem
    cases driven with
    | enter scope => exact absurd hmem (h.settled c scope)
    | synchronize => exact absurd hunder.1 (hrun hmem)
    | _ => cases hrank
  · rw [hgets hattached]
    refine ⟨fun hget => hget.resolve_right ?_, .inl⟩
    rintro ⟨driven, hmem, hgrants⟩
    obtain ⟨k', hunder⟩ := hbounded _ hmem
    cases driven with
    | addOutput | keepOutput | addInput => exact hrun hmem hunder.1
    | _ => cases hgrants

/-- Whatever a cell has is in the scope. -/
theorem scope_eq_of_has (hcell : w.cell? c = some cell) (has : cell.Has name q x k) :
    cell.scope = some s ∧ q = s := by
  obtain ⟨hscope, -⟩ := h.cascading.enlisted.posted.entry hcell has
  obtain rfl := h.housed hcell hscope
  exact ⟨hscope, rfl⟩

section Observed

variable (hcell : w.cell? c = some cell) (hcell' : w.cell? c' = some cell')
  (hawake' : cell'.suspended = false) (has' : cell'.Has n s r .reader)
include hcell' hawake' has'

/-- The reader of a cell sees everything before the cell. -/
theorem exists_anchor : cell'.scope = some s ∧ ∃ y, w.tree.anchor? s r = some (n, y) ∧
    ∀ {p : Position}, p < cell'.position → p ≤ y := by
  obtain ⟨g, hbounded⟩ := h.bounded
  obtain ⟨hscope', y, ⟨hanchor, -⟩, hbefore, hthere⟩ :=
    hbounded.entry h.cascading.enlisted hcell' hawake' has'
  refine ⟨hscope', y, hanchor, fun {p} hp => ?_⟩
  by_cases hwrites : Writes w.agenda c' cell' n
  · rw [hbefore hwrites]
    exact (Position.lt_iff_le_justBefore (h.cascading.spaced.interior hcell')).mp hp
  · rw [hthere hwrites]
    exact Position.le_of_lt hp

/-- A cell in between that writes the name has a definition of it, and would be observed instead. -/
theorem not_between (hx : (x, cell.position) ∈ w.tree.sequence s name)
    (hbinding : w.tree.binding? s r = some x) {b : CellId} {between : Cell}
    (hb : v.cell? b = some between) (hne : b ≠ origin) (hinside : between.scope = some s)
    (hwrites : n ∈ between.expression.writtenNames) (hafter : cell.position < between.position) :
    ¬between.position < cell'.position := by
  intro hbetween
  obtain ⟨blocker, hblocker⟩ := Option.ne_none_iff_exists'.mp
    (h.resembles.present (by rw [hb]; rintro ⟨⟩))
  obtain ⟨between', hb', hplace, hstays, hblanked⟩ := h.resembles.cells hblocker
  cases hb.symm.trans hb'
  have hattached : blocker.scope = some s := hstays.trans hinside
  have hawake := h.awake hblocker hne
  obtain ⟨q, x', has⟩ := (h.wants_iff hblocker hawake (by rw [hattached]; rintro ⟨⟩) n
    .definition).mp (by rwa [Cell.wants, Expr.writtenNames_congr hblanked])
  obtain ⟨-, rfl⟩ := h.scope_eq_of_has hblocker has
  obtain ⟨g, hbounded⟩ := h.bounded
  obtain ⟨-, z, hz, haims⟩ := hbounded.entry h.cascading.enlisted hblocker hawake has
  obtain rfl : z = blocker.position := haims
  obtain ⟨-, y, hanchor, hsees⟩ := h.exists_anchor hcell' hawake' has'
  have hfar := ScopeTree.le_of_mem_sequence h.cascading.enlisted.ready.tied.allConsistent hanchor
    hbinding hx hz (hsees (by rwa [hplace]))
  rw [hplace] at hfar
  exact Position.not_lt.mpr hfar hafter

include hcell

/-- What a cell observes stands before it: a cell that has a definition of the name itself reads it
from just before itself. -/
theorem lt_of_binding? (hx : (x, cell.position) ∈ w.tree.sequence s name)
    (hsource : cell.suspended = true ∨ cell.outputs[name]? ≠ none)
    (hbinding : w.tree.binding? s r = some x) : n = name ∧ cell.position < cell'.position := by
  have hspaced := h.cascading.spaced
  obtain ⟨g, hbounded⟩ := h.bounded
  obtain ⟨-, y, ⟨hanchor, -⟩, hbefore, hthere⟩ :=
    hbounded.entry h.cascading.enlisted hcell' hawake' has'
  obtain ⟨rfl, hle⟩ := ScopeTree.le_of_binding? h.cascading.enlisted.ready.tied.allConsistent
    hanchor hbinding hx
  refine ⟨rfl, ?_⟩
  by_cases hwrites : Writes w.agenda c' cell' name
  · rw [hbefore hwrites] at hle
    exact (Position.lt_iff_le_justBefore (hspaced.interior hcell')).mpr hle
  · rw [hthere hwrites] at hle
    by_contra hnot
    obtain rfl := hspaced.apart hcell hcell'
      (Position.same_iff.mpr ⟨hle, Position.not_lt.mp hnot⟩)
    cases hcell.symm.trans hcell'
    rcases hsource with hsuspended | houtput
    · rw [hsuspended] at hawake'
      cases hawake'
    · exact hwrites (.inl houtput)

/-- A cell that hears of what observes a definition of another one is an heir of that cell. -/
theorem inherits (hscope : cell.scope = some s)
    (hx : (x, cell.position) ∈ w.tree.sequence s name)
    (hsource : cell.suspended = true ∨ cell.outputs[name]? ≠ none)
    (hbinding : w.tree.binding? s r = some x) : n = name ∧ v.Inherits origin c name c' := by
  obtain ⟨rfl, hlt⟩ := h.lt_of_binding? hcell hcell' hawake' has' hx hsource hbinding
  obtain ⟨hscope', -⟩ := h.exists_anchor hcell' hawake' has'
  obtain ⟨first, hfirst, hposition, hseat, -⟩ := h.resembles.cells hcell
  obtain ⟨first', hfirst', hposition', hseat', hblanked'⟩ := h.resembles.cells hcell'
  have hhome : first.scope = some s := hseat.symm.trans hscope
  refine ⟨rfl, first, first', hfirst, hfirst', by rw [hhome]; rintro ⟨⟩, ?_,
    hposition ▸ hposition' ▸ hlt, ?_, fun b between hb hne hinside hwrites hafter => ?_⟩
  · rw [hhome, ← hseat', hscope']
  · have hreads := (h.wants_iff hcell' hawake' (by rw [hscope']; rintro ⟨⟩) n .reader).mpr
      ⟨_, _, has'⟩
    rwa [Cell.wants, Expr.readNames_congr hblanked'] at hreads
  · rw [← hposition']
    exact h.not_between hcell' hawake' has' hx hbinding hb hne (hinside.trans hhome) hwrites
      (hposition ▸ hafter)

end Observed

end Spreading

end Workspace

end MathCanvas
