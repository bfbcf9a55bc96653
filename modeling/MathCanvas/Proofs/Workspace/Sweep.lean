import MathCanvas.Proofs.Workspace.Perform

/-!
# Sweeping keeps the imports in order

`Workspace.sweep` takes away cells and scopes that nobody refers to (`swept_sweep`). What is left is
as it was (`Swept`): no link is new, no reader that stays observes another value, and so a coherent
workspace stays coherent (`Coherent.swept`).
-/

namespace MathCanvas

namespace ScopeTree

variable {t : ScopeTree}

theorem recedes_ignoreReader (h : t.WellTied) {l : Listener} (hl : ∀ c n, l ≠ .importer c n)
    (s : ScopeId) (r : ReaderId) :
    (t.ignoreReader s r l).WellTied ∧ t.Recedes (t.ignoreReader s r l) := by
  have hadvances := fun u => advances_ignoreReader h hl s r u
  refine ⟨(hadvances s).tied, rfl, fun u => (hadvances u).toPasses, fun {p x c n} hf => ?_⟩
  have hfeeds : (t.ignoreReader s r l).Feeds p x c n ↔ t.Feeds p x c n :=
    feeds_modify_iff fun _ => ⟨rfl, rfl⟩
  exact hfeeds.mp hf

end ScopeTree

namespace Workspace

variable {w w' w'' : Workspace} {due : ScopeId → ReaderId → Prop}

/-- A workspace from which cells and scopes were taken away. -/
structure Swept (w w' : Workspace) : Prop where
  tied : w'.tree.WellTied
  recedes : w.tree.Recedes w'.tree
  cell : ∀ {c : CellId} {cell : Cell}, w'.cell? c = some cell → w.cell? c = some cell
  definitions : w'.definitions = w.definitions
  readers : w'.readers = w.readers
  agenda : w'.agenda = w.agenda

theorem Swept.refl (h : w.tree.WellTied) : w.Swept w := ⟨h, .refl w.tree, id, rfl, rfl, rfl⟩

theorem Swept.trans (h : w.Swept w') (h' : w'.Swept w'') : w.Swept w'' where
  tied := h'.tied
  recedes := h.recedes.trans h'.recedes
  cell hc := h.cell (h'.cell hc)
  definitions := h'.definitions.trans h.definitions
  readers := h'.readers.trans h.readers
  agenda := h'.agenda.trans h.agenda

/-- Nobody listens for a cell that is gone. -/
theorem swept_forgetCell (h : w.tree.WellTied) (c : CellId) (cell : Cell) :
    w.Swept (w.forgetCell c cell) := by
  have hignore : ∀ (inputs : List (String × CellInput)) (t : ScopeTree), t.WellTied →
      (inputs.foldl (fun tree entry => tree.ignoreReader entry.2.scope entry.2.reader
        (.input c entry.1)) t).WellTied ∧
      t.Recedes (inputs.foldl (fun tree entry => tree.ignoreReader entry.2.scope entry.2.reader
        (.input c entry.1)) t) := by
    intro inputs
    induction inputs with
    | nil => exact fun t ht => ⟨ht, .refl t⟩
    | cons entry rest ih =>
      intro t ht
      obtain ⟨htied, hrecedes⟩ := ScopeTree.recedes_ignoreReader ht
        (by simp : ∀ c' n, Listener.input c entry.1 ≠ .importer c' n) entry.2.scope entry.2.reader
      obtain ⟨htied', hrecedes'⟩ := ih _ htied
      exact ⟨htied', hrecedes.trans hrecedes'⟩
  obtain ⟨htied, hrecedes⟩ := hignore cell.inputs.toList w.tree h
  refine ⟨htied, hrecedes, fun {c' cell'} hc => ?_, rfl, rfl, rfl⟩
  have hlookup : (w.cells.erase c)[c']? = some cell' := hc
  rw [lookup_erase_eq_some_iff] at hlookup
  exact hlookup.2

theorem swept_forgetCells (cells : List (CellId × Cell)) : ∀ {w : Workspace}, w.tree.WellTied →
    w.Swept (cells.foldl
      (fun w (c, cell) => if w.refersToCell c then w else w.forgetCell c cell) w) := by
  induction cells with
  | nil => exact fun h => .refl h
  | cons entry rest ih =>
    intro w h
    obtain ⟨c, cell⟩ := entry
    rw [List.foldl_cons]
    by_cases hc : w.refersToCell c = true
    · simp only [hc, if_true]
      exact ih h
    · simp only [hc]
      have hfirst := swept_forgetCell h c cell
      exact hfirst.trans (ih hfirst.tied)

/-- The scopes around a scope that is kept are kept. -/
theorem mem_kept_of_parent {t : ScopeTree} (h : t.WellTied) {referred : List ScopeId}
    {q p : ScopeId} {scope : Scope} (hq : t.get? q = some scope)
    (hparent : scope.ancestors.head? = some p)
    (hkept : q ∈ referred ++ referred.flatMap t.ancestors) :
    p ∈ referred ++ referred.flatMap t.ancestors := by
  have hp : p ∈ scope.ancestors := List.mem_of_mem_head? hparent
  refine List.mem_append_right _ (List.mem_flatMap.mpr ?_)
  rcases List.mem_append.mp hkept with hkept | hkept
  · exact ⟨q, hkept, by rwa [ScopeTree.ancestors_of_get? hq]⟩
  · obtain ⟨x, hx, hmem⟩ := List.mem_flatMap.mp hkept
    cases hget : t.get? x with
    | none => simp [ScopeTree.ancestors, hget] at hmem
    | some inner =>
      rw [ScopeTree.ancestors_of_get? hget] at hmem
      refine ⟨x, hx, ?_⟩
      rw [ScopeTree.ancestors_of_get? hget]
      exact ScopeTree.Tied.mem_ancestors_trans h hget hmem hq hp

theorem swept_sweep (h : w.tree.WellTied) : w.Swept w.sweep := by
  have hcells := swept_forgetCells w.cells.toList h
  unfold sweep
  set v := w.cells.toList.foldl
    (fun w (c, cell) => if w.refersToCell c then w else w.forgetCell c cell) w with hv
  have hsorted : v.tree.scopes.keys.reverse.Pairwise (· > ·) := by
    rw [List.pairwise_reverse]
    refine Std.TreeMap.ordered_keys.imp fun {a b} hab => ?_
    exact Nat.compare_eq_lt.mp hab
  obtain ⟨htied, hrecedes⟩ := ScopeTree.recedes_removeAll hcells.tied hsorted
    (fun {q scope} hq => .inl (by
      rw [List.mem_reverse, mem_keys_iff_lookup]
      exact ⟨scope, hq⟩))
    (fun hq hparent hkept => mem_kept_of_parent hcells.tied hq hparent hkept)
  exact hcells.trans ⟨htied, hrecedes, id, rfl, rfl, rfl⟩

theorem Coherent.swept (h : w.Coherent due) (hs : w.Swept w') : w'.Coherent due := by
  have hextends : w.tree.Extends w'.tree := (hs.recedes.passes 0).toExtends
  refine ⟨hs.tied, fun hc => ?_, fun hh => ?_, fun hh => ?_, fun htask => ?_, fun {p r} hu => ?_⟩
  · exact (h.cell (hs.cell hc)).extend hextends
  · exact (h.definition (hs.definitions ▸ hh)).extend hextends
  · exact (h.reader (hs.readers ▸ hh)).extend hextends
  · exact (h.safe (hs.agenda ▸ htask)).extend hextends
  · have hold := ((hs.recedes.passes p).unsettled hu).resolve_right (by simp)
    rw [hs.agenda]
    exact h.noticed hold

end Workspace

end MathCanvas
