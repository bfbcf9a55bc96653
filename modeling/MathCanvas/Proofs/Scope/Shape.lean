import MathCanvas.Proofs.Scope.Lifetime

/-!
# The places of scopes

No operation on bindings, listeners or imports moves a scope to another place in the tree
(`sameShape_update`), and removing a scope leaves all others where they are (`shape_remove`).
-/

namespace MathCanvas

namespace ScopeTree

variable {t t' : ScopeTree} {s q : ScopeId}

/-- The place of a scope: its walls, its start and the scopes around it. -/
def shape? (t : ScopeTree) (q : ScopeId) : Option (Bool × Position × List ScopeId) :=
  (t.get? q).map fun scope => (scope.closed, scope.start, scope.ancestors)

theorem SameShape.shape?_eq (h : t.SameShape t') (q : ScopeId) : t'.shape? q = t.shape? q :=
  h.shape q

theorem shape?_eq_none_iff : t.shape? q = none ↔ t.get? q = none := Option.map_eq_none_iff

theorem SameShape.get?_eq_none_iff (h : t.SameShape t') (q : ScopeId) :
    t'.get? q = none ↔ t.get? q = none := by
  rw [← shape?_eq_none_iff, h.shape?_eq, shape?_eq_none_iff]

/-! ### Operations -/

theorem sameShape_setBindings (b : Bindings) : t.SameShape (t.setBindings s b) :=
  .of_modify fun _ => ⟨rfl, rfl, rfl⟩

theorem sameShape_listenToReader (r : ReaderId) (l : Listener) :
    t.SameShape (t.listenToReader s r l) := .of_modify fun _ => ⟨rfl, rfl, rfl⟩

theorem sameShape_ignoreReader (r : ReaderId) (l : Listener) :
    t.SameShape (t.ignoreReader s r l) := .of_modify fun _ => ⟨rfl, rfl, rfl⟩

theorem sameShape_listenToDefinition (id : SlotId) (l : Listener) :
    t.SameShape (t.listenToDefinition s id l) := .of_modify fun _ => ⟨rfl, rfl, rfl⟩

theorem sameShape_ignoreDefinition (id : SlotId) (l : Listener) :
    t.SameShape (t.ignoreDefinition s id l) := .of_modify fun _ => ⟨rfl, rfl, rfl⟩

theorem sameShape_link (name : String) (further : List ScopeId) : ∀ (t : ScopeTree) (s : ScopeId),
    t.SameShape (t.link s name further).2 := by
  induction further with
  | nil => exact fun t _ => .refl t
  | cons parent further ih =>
    intro t s
    unfold link
    split
    · split
      · exact .refl t
      · rename_i scope around _ _ _
        set b := (around.bindings.addReader name scope.start).2.2
        have hset : t.SameShape (t.setBindings parent b) := sameShape_setBindings b
        simp only
        split
        · exact (hset.trans (sameShape_listenToReader _ _)).trans
            (.of_modify fun _ => ⟨rfl, rfl, rfl⟩)
        · exact ((hset.trans (ih _ _)).trans (sameShape_listenToReader _ _)).trans
            (.of_modify fun _ => ⟨rfl, rfl, rfl⟩)
    · exact .refl t

theorem sameShape_unlink (name : String) (further : List ScopeId) : ∀ (t : ScopeTree) (s : ScopeId),
    t.SameShape (t.unlink s name further) := by
  induction further with
  | nil => exact fun t _ => .refl t
  | cons parent further ih =>
    intro t s
    unfold unlink
    split
    · exact .refl t
    · have herase : t.SameShape
          (t.modify s fun scope => { scope with imports := scope.imports.erase name }) :=
        .of_modify fun _ => ⟨rfl, rfl, rfl⟩
      simp only
      split
      · exact herase
      · rename_i reader _ _ around _
        have hdrop := herase.trans (.of_modify (s := parent) (f := fun outer =>
          { outer with
            bindings := (around.bindings.removeReader reader).2
            readerListeners := outer.readerListeners.erase reader }) fun _ => ⟨rfl, rfl, rfl⟩)
        split
        · exact hdrop
        · exact hdrop.trans (ih _ _)

/-- What every one of some changes keeps, all of them keep. -/
theorem sameShape_foldl {α : Type} {f : ScopeTree → α → ScopeTree}
    (hf : ∀ t x, SameShape t (f t x)) (l : List α) : ∀ t : ScopeTree, t.SameShape (l.foldl f t) := by
  induction l with
  | nil => exact fun t => .refl t
  | cons x rest ih => exact fun t => (hf t x).trans (ih (f t x))

theorem sameShape_follow (t : ScopeTree) (s : ScopeId) (changes : Changes) :
    t.SameShape (t.follow s changes).2 := by
  have hlinks : ∀ (names : List String) (readers : List ReaderId) (u : ScopeTree),
      u.SameShape (names.foldl (fun linked name =>
        (linked.1 ++ (linked.2.link s name (t.ancestors s)).1,
          (linked.2.link s name (t.ancestors s)).2)) (readers, u)).2 := by
    intro names
    induction names with
    | nil => exact fun _ u => .refl u
    | cons name rest ih => exact fun readers u => (sameShape_link name _ u s).trans (ih _ _)
  exact (sameShape_foldl (fun u name => sameShape_unlink name _ u s) changes.closed t).trans
    (hlinks changes.opened changes.readers _)

theorem sameShape_update (t : ScopeTree) (s : ScopeId) (f : Bindings → Changes × Bindings) :
    t.SameShape (t.update s f).2 := by
  unfold update
  split
  · exact (sameShape_setBindings _).trans (sameShape_follow _ s _)
  · exact .refl t

theorem sameShape_addDefinition {name : String} {p : Position}
    {made : SlotId × List ReaderId × ScopeTree} (h : t.addDefinition s name p = some made) :
    t.SameShape made.2.2 := by
  obtain ⟨scope, -, rfl⟩ := Option.map_eq_some_iff.mp h
  exact (sameShape_setBindings _).trans (sameShape_follow _ s _)

theorem sameShape_addReader {name : String} {p : Position}
    {made : ReaderId × List ReaderId × ScopeTree} (h : t.addReader s name p = some made) :
    t.SameShape made.2.2 := by
  obtain ⟨scope, -, rfl⟩ := Option.map_eq_some_iff.mp h
  exact (sameShape_setBindings _).trans (sameShape_follow _ s _)

theorem sameShape_removeDefinition (t : ScopeTree) (s : ScopeId) (id : SlotId) :
    t.SameShape (t.removeDefinition s id).2 := by
  have hmodify : t.SameShape (t.modify s fun scope =>
      { scope with definitionListeners := scope.definitionListeners.erase id }) :=
    .of_modify fun _ => ⟨rfl, rfl, rfl⟩
  exact hmodify.trans (sameShape_update _ s _)

theorem sameShape_removeReader (t : ScopeTree) (s : ScopeId) (id : ReaderId) :
    t.SameShape (t.removeReader s id).2 := by
  have hmodify : t.SameShape (t.modify s fun scope =>
      { scope with readerListeners := scope.readerListeners.erase id }) :=
    .of_modify fun _ => ⟨rfl, rfl, rfl⟩
  exact hmodify.trans (sameShape_update _ s _)

theorem sameShape_write (t : ScopeTree) (s : ScopeId) (id : SlotId) (v : SlotValue) :
    t.SameShape (t.write s id v).2.2 := by
  unfold write
  split
  · exact sameShape_setBindings _
  · exact .refl t

/-! ### Scopes that come and go -/

theorem shape?_remove (t : ScopeTree) (h : s ≠ q) : (t.remove s).shape? q = t.shape? q := by
  have hunlinked : ∀ names : List String,
      t.SameShape (names.foldl (fun t' name => t'.unlink s name (t.ancestors s)) t) :=
    fun names => sameShape_foldl (fun u name => sameShape_unlink name _ u s) names t
  unfold remove
  rw [shape?, get?, lookup_erase, if_neg h, ← get?, ← shape?]
  exact (hunlinked _).shape?_eq q

theorem shape?_removeAll {kept : List ScopeId} (hq : q ∈ kept) (ids : List ScopeId) :
    ∀ t : ScopeTree, (ids.foldl (fun t s =>
      if kept.contains s then t else t.remove s) t).shape? q = t.shape? q := by
  induction ids with
  | nil => exact fun t => rfl
  | cons s rest ih =>
    intro t
    rw [List.foldl_cons, ih]
    split
    · rfl
    · rename_i hs
      refine shape?_remove t ?_
      rintro rfl
      exact hs (List.contains_iff_mem.mpr hq)

end ScopeTree

end MathCanvas
