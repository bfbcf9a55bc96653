import MathCanvas.Proofs.Scope.Evolve

/-!
# Values that fade

Clearing a definition or an importer, and taking away a reader or a scope, gives no reader a value
that it did not observe before: a reader observes what it did, or nothing at all (`Fades`). The
readers that have to be told when something is cleared are those that observe nothing.
-/

namespace MathCanvas

namespace Bindings

variable {b b' c : Bindings} {id : SlotId} {slot : Slot} {r : ReaderId}

/-- No reader observes a value that it did not observe before. -/
def Fades (b b' : Bindings) : Prop :=
  ∀ r : ReaderId, b'.readerValue? r = b.readerValue? r ∨ (b'.readerValue? r).getD .unset = .unset

theorem Fades.refl (b : Bindings) : b.Fades b := fun _ => .inl rfl

theorem Fades.trans (h : b.Fades c) (h' : c.Fades b') : b.Fades b' := by
  intro r
  rcases h' r with hlate | hunset
  · rw [hlate]
    exact h r
  · exact .inr hunset

/-- Readers keep their slots or go, and slots keep their values or go or are cleared. -/
theorem Fades.of_lookup
    (hreaders : ∀ r : ReaderId, b'.readers[r]? = b.readers[r]? ∨ b'.readers[r]? = none)
    (hslots : ∀ id : SlotId, b'.value? id = b.value? id ∨ (b'.value? id).getD .unset = .unset) :
    b.Fades b' := by
  intro r
  rw [readerValue?, readerValue?, binding?, binding?]
  rcases hreaders r with hsame | hgone
  · rw [hsame]
    cases (b.readers[r]?).map (·.slot) with
    | none => exact .inl rfl
    | some id => exact hslots id
  · rw [hgone]
    exact .inr rfl

theorem value?_insert_cleared (b : Bindings) (id x : SlotId) (slot : Slot) :
    ({ b with slots := b.slots.insert id { slot with value := .unset } } : Bindings).value? x =
      if id = x then some .unset else b.value? x := by
  rw [value?, lookup_insert]
  split <;> rfl

theorem fades_clear (b : Bindings) (id : SlotId) : b.Fades (b.setValue id .unset).2 := by
  unfold setValue
  split
  · rename_i slot hslot
    split
    · exact .refl b
    · refine .of_lookup (fun _ => .inl rfl) fun x => ?_
      rw [value?_insert_cleared]
      split
      · exact .inr rfl
      · exact .inl rfl
  · exact .refl b

/-- The readers of a slot that is cleared observe nothing. -/
theorem readerValue?_clear (hb : b.Consistent) (hr : r ∈ (b.setValue id .unset).1.readers) :
    (b.setValue id .unset).2.readerValue? r = some .unset := by
  unfold setValue at hr ⊢
  split at hr
  · rename_i slot hslot
    split at hr
    · simp at hr
    · rename_i hchanged
      obtain ⟨reader, hreader, hobserves⟩ := hb.observes hslot ((perm_sortBy _ _).mem_iff.mp hr)
      rw [if_neg hchanged, readerValue?, binding?]
      simp only
      rw [hreader, Option.map_some, Option.bind_some, value?_insert_cleared,
        if_pos hobserves.symm]
  · simp at hr

theorem fades_clearImported (b : Bindings) (name : String) :
    b.Fades (b.setImported name .unset).2 := by
  unfold setImported
  split
  · exact fades_clear b _
  · exact .refl b

theorem readerValue?_clearImported (hb : b.Consistent) {name : String}
    (hr : r ∈ (b.setImported name .unset).1.readers) :
    (b.setImported name .unset).2.readerValue? r = some .unset := by
  unfold setImported at hr ⊢
  split at hr
  · exact readerValue?_clear hb hr
  · simp at hr

/-- Putting a name out of use takes away its importer, if anything. -/
theorem fades_closeName (b : Bindings) (name : String) : b.Fades (b.closeName name).1 := by
  unfold closeName
  split
  · rename_i importer _
    split
    · exact .refl b
    · refine .of_lookup (fun _ => .inl rfl) fun x => ?_
      rw [value?, lookup_erase]
      split
      · exact .inr rfl
      · exact .inl rfl
  · exact .refl b

theorem fades_removeReader (b : Bindings) (id : ReaderId) : b.Fades (b.removeReader id).2 := by
  unfold removeReader
  split
  · rename_i reader _
    refine Fades.trans (.of_lookup (fun x => ?_) fun x => .inl ?_)
      (fades_closeName (({ b with readers := b.readers.erase id } : Bindings).unbind id reader.slot)
        reader.name)
    · show (b.readers.erase id)[x]? = _ ∨ (b.readers.erase id)[x]? = none
      rw [lookup_erase]
      split
      · exact .inr rfl
      · exact .inl rfl
    · rw [value?, unbind, lookup_modify]
      split
      · rw [Option.map_map]
        rfl
      · rfl
  · exact .refl b

end Bindings

namespace ScopeTree

variable {t t' u : ScopeTree} {s p : ScopeId} {scope : Scope} {r : ReaderId} {readers : List ReaderId}

/-- No reader observes a value that it did not observe before. -/
def Fades (t t' : ScopeTree) : Prop :=
  ∀ (p : ScopeId) (r : ReaderId),
    t'.readerValue p r = t.readerValue p r ∨ t'.readerValue p r = .unset

namespace Fades

theorem refl (t : ScopeTree) : t.Fades t := fun _ _ => .inl rfl

theorem trans (h : t.Fades u) (h' : u.Fades t') : t.Fades t' := fun p r =>
  (h' p r).elim (fun hlate => (h p r).imp hlate.trans hlate.trans) .inr

/-- A reader that observes nothing goes on doing so. -/
theorem unset (h : t.Fades t') (hr : t.readerValue p r = .unset) : t'.readerValue p r = .unset :=
  (h p r).elim (fun hsame => hsame.trans hr) id

/-- One scope changes. -/
theorem of_modify {f : Scope → Scope}
    (hf : ∀ scope, t.get? s = some scope → scope.bindings.Fades (f scope).bindings) :
    t.Fades (t.modify s f) := by
  intro p r
  rw [readerValue, readerValue, get?_modify]
  split
  · rename_i hs
    subst hs
    cases hs : t.get? s with
    | none => exact .inl rfl
    | some scope =>
      rw [Option.map_some, Option.bind_some, Option.bind_some]
      exact (hf scope hs r).imp_left fun hsame => by rw [hsame]
  · exact .inl rfl

theorem erase (t : ScopeTree) (s : ScopeId) : t.Fades { t with scopes := t.scopes.erase s } := by
  intro p r
  have hget : ({ t with scopes := t.scopes.erase s } : ScopeTree).get? p =
      if s = p then none else t.get? p := lookup_erase _ _ _
  rw [readerValue, hget]
  split
  · exact .inr rfl
  · exact .inl rfl

/-- What every one of some changes keeps, all of them keep. -/
theorem foldl {α : Type} {f : ScopeTree → α → ScopeTree} (hf : ∀ t x, Fades t (f t x))
    (l : List α) : ∀ t : ScopeTree, t.Fades (l.foldl f t) := by
  induction l with
  | nil => exact fun t => .refl t
  | cons x rest ih => exact fun t => (hf t x).trans (ih (f t x))

end Fades

/-! ### Clearing -/

theorem readerValue_setBindings (hs : t.get? s = some scope) (b : Bindings) (r : ReaderId) :
    (t.setBindings s b).readerValue s r = (b.readerValue? r).getD .unset := by
  rw [readerValue, setBindings, get?_modify_self _ hs, Option.bind_some]

theorem fades_clear (t : ScopeTree) (s : ScopeId) (id : SlotId) :
    t.Fades (t.write s id .unset).2.2 := by
  unfold write
  split
  · rename_i scope hs
    refine .of_modify fun scope' hs' => ?_
    cases Option.some.inj (hs.symm.trans hs')
    exact Bindings.fades_clear _ id
  · exact .refl t

/-- Those who are told of a clearing observe nothing. -/
theorem readerValue_clear (h : t.Consistent) {id : SlotId} (hr : r ∈ (t.write s id .unset).2.1) :
    (t.write s id .unset).2.2.readerValue s r = .unset := by
  unfold write at hr ⊢
  cases hs : t.get? s with
  | none => simp [hs] at hr
  | some scope =>
    rw [hs] at hr
    rw [readerValue_setBindings hs, Bindings.readerValue?_clear (h hs) hr, Option.getD_some]

/-- Telling an importer about a value changes the bindings of its scope and nothing else. -/
theorem setImported_eq (hs : t.get? s = some scope) (name : String) (v : SlotValue) :
    t.setImported s name v = ((scope.bindings.setImported name v).1.readers,
      t.setBindings s (scope.bindings.setImported name v).2) := by
  obtain ⟨hopened, hclosed⟩ := Bindings.setImported_changes scope.bindings name v
  rw [setImported, update, hs]
  exact follow_of_nil hopened hclosed

theorem fades_clearImported (hs : t.get? s = some scope) (name : String) :
    t.Fades (t.setImported s name .unset).2 := by
  rw [setImported_eq hs]
  refine .of_modify fun scope' hs' => ?_
  cases Option.some.inj (hs.symm.trans hs')
  exact Bindings.fades_clearImported _ name

theorem readerValue_clearImported (h : t.Consistent) (hs : t.get? s = some scope) {name : String}
    (hr : r ∈ (t.setImported s name .unset).1) :
    (t.setImported s name .unset).2.readerValue s r = .unset := by
  rw [setImported_eq hs] at hr ⊢
  rw [readerValue_setBindings hs, Bindings.readerValue?_clearImported (h hs) hr, Option.getD_some]

/-! ### Taking away -/

theorem fades_ignoreReader (t : ScopeTree) (s : ScopeId) (r : ReaderId) (l : Listener) :
    t.Fades (t.ignoreReader s r l) := .of_modify fun _ _ => .refl _

theorem fades_unlink (name : String) (further : List ScopeId) :
    ∀ (t : ScopeTree) (s : ScopeId), t.Fades (t.unlink s name further) := by
  induction further with
  | nil => exact fun t _ => .refl t
  | cons parent further ih =>
    intro t s
    unfold unlink
    split
    · exact .refl t
    · rename_i reader _
      have herase : t.Fades
          (t.modify s fun scope => { scope with imports := scope.imports.erase name }) :=
        .of_modify fun _ _ => .refl _
      simp only
      split
      · exact herase
      · rename_i around haround
        have hdrop := herase.trans (.of_modify (s := parent) (f := fun outer =>
          { outer with
            bindings := (around.bindings.removeReader reader).2
            readerListeners := outer.readerListeners.erase reader }) fun outer houter => by
              cases Option.some.inj (haround.symm.trans houter)
              exact Bindings.fades_removeReader _ reader)
        split
        · exact hdrop
        · exact hdrop.trans (ih _ _)

theorem fades_remove (t : ScopeTree) (s : ScopeId) : t.Fades (t.remove s) := by
  unfold remove
  exact (Fades.foldl (fun u name => fades_unlink name _ u s) _ t).trans (.erase _ s)

end ScopeTree

end MathCanvas
