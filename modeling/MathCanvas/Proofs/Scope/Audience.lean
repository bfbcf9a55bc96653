import MathCanvas.Proofs.Scope.Fades
import MathCanvas.Proofs.Scope.Listeners
import MathCanvas.Proofs.Scope.Sources

/-!
# Those who are told of a value

When a definition is written, those who are told are the listeners of the readers that observe it,
and when a scope is told of an imported value, those of the readers that observe its importer
(`binding?_of_mem_write`, `binding?_of_mem_setImported`). When a reader goes, nobody is told
(`removeReader_fst`). No listener is gained by this, nor when scopes and cells go (`Hushes`), as
opposed to what happens when definitions and readers are added or moved, which brings in the
importers of further scopes.
-/

namespace MathCanvas

namespace Bindings

variable {b : Bindings} {id : SlotId} {r : ReaderId} {v : SlotValue} {name : String}

/-- Those who are told of a value that is written observe the slot. -/
theorem binding?_of_mem_setValue (hb : b.Consistent) (hr : r ∈ (b.setValue id v).1.readers) :
    b.binding? r = some id := by
  unfold setValue at hr
  split at hr
  · rename_i slot hslot
    split at hr
    · simp at hr
    · obtain ⟨reader, hreader, rfl⟩ := hb.observes hslot ((perm_sortBy _ _).mem_iff.mp hr)
      rw [binding?, hreader, Option.map_some]
  · simp at hr

theorem binding?_of_mem_setImported (hb : b.Consistent)
    (hr : r ∈ (b.setImported name v).1.readers) :
    ∃ x, b.importer? name = some x ∧ b.binding? r = some x := by
  unfold setImported at hr
  split at hr
  · rename_i importer himporter
    exact ⟨importer, himporter, binding?_of_mem_setValue hb hr⟩
  · simp at hr

end Bindings

namespace ScopeTree

variable {t t' u : ScopeTree} {s p : ScopeId} {scope : Scope} {id x : SlotId} {r : ReaderId}
  {v : SlotValue} {name : String} {l : Listener}

/-! ### The readers that are told about -/

theorem binding?_of_mem_write (h : t.Consistent) (hr : r ∈ (t.write s id v).2.1) :
    t.binding? s r = some id := by
  unfold write at hr
  cases hs : t.get? s with
  | none => simp [hs] at hr
  | some scope =>
    rw [hs] at hr
    rw [binding?_of_get? hs]
    exact Bindings.binding?_of_mem_setValue (h hs) hr

theorem binding?_of_mem_setImported (h : t.Consistent) (hs : t.get? s = some scope)
    (hr : r ∈ (t.setImported s name v).1) :
    ∃ x, scope.bindings.importer? name = some x ∧ t.binding? s r = some x := by
  rw [setImported_eq hs] at hr
  rw [binding?_of_get? hs]
  exact Bindings.binding?_of_mem_setImported (h hs) hr

/-- A reader goes unnoticed: the names that are dropped with it are not read. -/
theorem removeReader_fst (t : ScopeTree) (s : ScopeId) (r : ReaderId) :
    (t.removeReader s r).1 = [] := by
  unfold removeReader update
  split
  · rename_i scope _
    have hchanges : (scope.bindings.removeReader r).1.opened = [] ∧
        (scope.bindings.removeReader r).1.readers = [] := by
      unfold Bindings.removeReader
      split <;> exact ⟨rfl, rfl⟩
    simp only [follow, hchanges.1, hchanges.2, List.foldl_nil]
  · rfl

/-! ### Nobody begins to listen -/

/-- Whoever listens to a reader did so before. -/
def Hushes (t t' : ScopeTree) : Prop :=
  ∀ p r, ∀ l ∈ t'.listeners p r, l ∈ t.listeners p r

namespace Hushes

theorem refl (t : ScopeTree) : t.Hushes t := fun _ _ _ => id

theorem trans (h : t.Hushes u) (h' : u.Hushes t') : t.Hushes t' :=
  fun p r l hl => h p r l (h' p r l hl)

/-- One scope changes. -/
theorem of_modify {f : Scope → Scope} (hf : ∀ {scope : Scope} {r : ReaderId} {l : Listener},
    l ∈ ((f scope).readerListeners[r]?).getD [] → l ∈ (scope.readerListeners[r]?).getD []) :
    t.Hushes (t.modify s f) := by
  intro p r l hl
  rw [listeners, get?_modify] at hl
  split at hl
  · cases hp : t.get? p with
    | none => simp [hp] at hl
    | some scope =>
      rw [hp] at hl
      rw [listeners_of_get? hp]
      exact hf hl
  · exact hl

theorem erase (t : ScopeTree) (s : ScopeId) :
    t.Hushes { t with scopes := t.scopes.erase s } := by
  intro p r l hl
  have hget : ({ t with scopes := t.scopes.erase s } : ScopeTree).get? p =
      if s = p then none else t.get? p := lookup_erase _ _ _
  rw [listeners, hget] at hl
  split at hl
  · simp at hl
  · exact hl

end Hushes

theorem hushes_write (t : ScopeTree) (s : ScopeId) (id : SlotId) (v : SlotValue) :
    t.Hushes (t.write s id v).2.2 := by
  unfold write
  split
  · exact .of_modify fun hl => hl
  · exact .refl t

theorem hushes_setImported (t : ScopeTree) (s : ScopeId) (name : String) (v : SlotValue) :
    t.Hushes (t.setImported s name v).2 := by
  cases hs : t.get? s with
  | none =>
    rw [setImported, update, hs]
    exact .refl t
  | some scope =>
    rw [setImported_eq hs]
    exact .of_modify fun hl => hl

theorem hushes_ignoreReader (t : ScopeTree) (s : ScopeId) (r : ReaderId) (l : Listener) :
    t.Hushes (t.ignoreReader s r l) := .of_modify mem_of_mem_dropListener

theorem hushes_unlink (name : String) (further : List ScopeId) :
    ∀ (t : ScopeTree) (s : ScopeId), t.Hushes (t.unlink s name further) := by
  induction further with
  | nil => exact fun t _ => .refl t
  | cons parent further ih =>
    intro t s
    unfold unlink
    split
    · exact .refl t
    · rename_i reader _
      have herase : t.Hushes
          (t.modify s fun scope => { scope with imports := scope.imports.erase name }) :=
        .of_modify fun hl => hl
      simp only
      split
      · exact herase
      · rename_i around _
        have hdrop := herase.trans (.of_modify (s := parent) (f := fun outer =>
          { outer with
            bindings := (around.bindings.removeReader reader).2
            readerListeners := outer.readerListeners.erase reader }) mem_of_mem_erase)
        split
        · exact hdrop
        · exact hdrop.trans (ih _ _)

theorem hushes_remove (t : ScopeTree) (s : ScopeId) : t.Hushes (t.remove s) := by
  have hfoldl : ∀ (names : List String) (u : ScopeTree),
      u.Hushes (names.foldl (fun u name => u.unlink s name (t.ancestors s)) u) := by
    intro names
    induction names with
    | nil => exact fun u => .refl u
    | cons name rest ih => exact fun u => (hushes_unlink name _ u s).trans (ih _)
  unfold remove
  exact (hfoldl _ t).trans (.erase _ s)

end ScopeTree

end MathCanvas
