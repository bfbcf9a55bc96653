import MathCanvas.Proofs.Scope.Operations

/-!
# What becomes of the bindings of the scopes

A tree of scopes `Evolves` into another one if the bindings of every scope that stays are consistent
and stand in a given relation to those that the scope had before. A relation that holds of the
operations on readers and importers (`Bindings.Indifferent`) then holds of all that linking and
unlinking names do to the scopes around (`evolves_follow`). All of this needs no more of the tree
than that its bindings are consistent.
-/

namespace MathCanvas

/-- A relation between bindings that does not see readers and imported values. -/
structure Bindings.Indifferent (R : Bindings → Bindings → Prop) : Prop where
  refl : ∀ b, R b b
  trans : ∀ {b c d}, R b c → R c d → R b d
  addReader : ∀ {b : Bindings}, b.Consistent → ∀ name p, R b (b.addReader name p).2.2
  moveReader : ∀ {b : Bindings}, b.Consistent → ∀ r p, R b (b.moveReader r p).2
  removeReader : ∀ {b : Bindings}, b.Consistent → ∀ r, R b (b.removeReader r).2
  setImported : ∀ {b : Bindings}, b.Consistent → ∀ name v, R b (b.setImported name v).2

namespace ScopeTree

variable {R : Bindings → Bindings → Prop} {t t' u : ScopeTree} {s : ScopeId} {scope : Scope}
  {readers : List ReaderId}

/-- The bindings of all scopes are consistent. -/
def Consistent (t : ScopeTree) : Prop :=
  ∀ {s : ScopeId} {scope : Scope}, t.get? s = some scope → scope.bindings.Consistent

theorem WellTied.allConsistent (h : t.WellTied) : t.Consistent := h.consistent

/-- The bindings of the scopes that stay are related to what they were, and consistent. -/
structure Evolves (R : Bindings → Bindings → Prop) (t t' : ScopeTree) : Prop where
  nextId_le : t.nextId ≤ t'.nextId
  consistent : t'.Consistent
  scope : ∀ {s : ScopeId} {scope' : Scope}, t'.get? s = some scope' →
    ∃ scope, t.get? s = some scope ∧ R scope.bindings scope'.bindings

namespace Evolves

variable (hR : Bindings.Indifferent R)
include hR

theorem refl (h : t.Consistent) : t.Evolves R t :=
  ⟨Nat.le_refl _, h, fun hs => ⟨_, hs, hR.refl _⟩⟩

theorem trans (h : t.Evolves R u) (h' : u.Evolves R t') : t.Evolves R t' where
  nextId_le := h.nextId_le.trans h'.nextId_le
  consistent := h'.consistent
  scope hs := by
    obtain ⟨between, hbetween, hlater⟩ := h'.scope hs
    obtain ⟨scope, hscope, hearlier⟩ := h.scope hbetween
    exact ⟨scope, hscope, hR.trans hearlier hlater⟩

omit hR in
/-- One scope changes. -/
theorem modify (h : t.Evolves R u) {f : Scope → Scope}
    (hf : ∀ scope', u.get? s = some scope' → (f scope').bindings.Consistent ∧
      ∃ scope, t.get? s = some scope ∧ R scope.bindings (f scope').bindings) :
    t.Evolves R (u.modify s f) where
  nextId_le := h.nextId_le
  consistent {q scope'} hq := by
    rw [get?_modify] at hq
    split at hq
    · rename_i heq
      subst heq
      obtain ⟨scope, hscope, rfl⟩ := Option.map_eq_some_iff.mp hq
      exact (hf scope hscope).1
    · exact h.consistent hq
  scope {q scope'} hq := by
    rw [get?_modify] at hq
    split at hq
    · rename_i heq
      subst heq
      obtain ⟨scope, hscope, rfl⟩ := Option.map_eq_some_iff.mp hq
      exact (hf scope hscope).2
    · exact h.scope hq

omit hR in
/-- What else there is in a scope does not matter. -/
theorem modify_same (h : t.Evolves R u) {f : Scope → Scope}
    (hf : ∀ scope, (f scope).bindings = scope.bindings) : t.Evolves R (u.modify s f) := by
  refine h.modify fun scope' hscope' => ?_
  rw [hf]
  exact ⟨h.consistent hscope', h.scope hscope'⟩

omit hR in
/-- A scope is taken away. -/
theorem erase (h : t.Evolves R u) (s : ScopeId) :
    t.Evolves R { u with scopes := u.scopes.erase s } := by
  have hget : ∀ {q scope}, ({ u with scopes := u.scopes.erase s } : ScopeTree).get? q = some scope →
      u.get? q = some scope :=
    fun {q scope} hq => ((lookup_erase_eq_some_iff u.scopes).mp hq).2
  exact ⟨h.nextId_le, fun hq => h.consistent (hget hq), fun hq => h.scope (hget hq)⟩

theorem setBindings (h : t.Consistent) (hs : t.get? s = some scope) {b : Bindings}
    (hb : b.Consistent) (hrelated : R scope.bindings b) : t.Evolves R (t.setBindings s b) :=
  (refl hR h).modify fun _ _ => ⟨hb, scope, hs, hrelated⟩

theorem foldl {α : Type} {f : ScopeTree → α → ScopeTree}
    (hf : ∀ (t : ScopeTree) (a : α), t.Consistent → t.Evolves R (f t a)) (l : List α) :
    ∀ {t : ScopeTree}, t.Consistent → t.Evolves R (l.foldl f t) := by
  induction l with
  | nil => exact fun h => refl hR h
  | cons a rest ih =>
    intro t h
    exact trans hR (hf t a h) (ih (hf t a h).consistent)

end Evolves

section Imports

variable (hR : Bindings.Indifferent R)
include hR

/-- Linking a name gives the scopes around new readers, and an importer its value. -/
theorem evolves_link (name : String) (further : List ScopeId) :
    ∀ {t : ScopeTree} {s : ScopeId}, t.Consistent → t.Evolves R (t.link s name further).2 := by
  induction further with
  | nil => exact fun h => .refl hR h
  | cons p further ih =>
    intro t s h
    unfold link
    cases hs : t.get? s with
    | none => exact .refl hR h
    | some scope =>
      cases hp : t.get? p with
      | none => exact .refl hR h
      | some around =>
        simp only
        split
        · exact .refl hR h
        have hadded : t.Evolves R (t.setBindings p
            (around.bindings.addReader name scope.start).2.2) :=
          .setBindings hR h hp (Bindings.observed_addReader (h hp) name scope.start).consistent
            (hR.addReader (h hp) name scope.start)
        set u := if (around.bindings.addReader name scope.start).2.1.opened.isEmpty then
            t.setBindings p (around.bindings.addReader name scope.start).2.2
          else ((t.setBindings p (around.bindings.addReader name scope.start).2.2).link p name
            further).2 with hu
        have houter : t.Evolves R u := by
          rw [hu]
          split
          · exact hadded
          · exact hadded.trans hR (ih hadded.consistent)
        have hlistened : t.Evolves R (u.listenToReader p
            (around.bindings.addReader name scope.start).1 (.importer s name)) :=
          houter.modify_same fun _ => rfl
        exact hlistened.modify fun _ _ =>
          ⟨(Bindings.observed_setImported (h hs) name _).consistent, scope, hs,
            hR.setImported (h hs) name _⟩

theorem evolves_unlink (name : String) (further : List ScopeId) :
    ∀ {t : ScopeTree} {s : ScopeId}, t.Consistent → t.Evolves R (t.unlink s name further) := by
  induction further with
  | nil => exact fun h => .refl hR h
  | cons p further ih =>
    intro t s h
    unfold unlink
    split
    · exact .refl hR h
    rename_i r hr
    set u := t.modify s fun scope => { scope with imports := scope.imports.erase name } with hu
    have hgone : t.Evolves R u := (Evolves.refl hR h).modify_same fun _ => rfl
    simp only
    split
    · exact hgone
    rename_i around hp
    have hconsistent := hgone.consistent hp
    have hremoved : t.Evolves R (u.modify p fun scope =>
        { scope with
          bindings := (around.bindings.removeReader r).2
          readerListeners := scope.readerListeners.erase r }) := by
      refine hgone.modify fun _ _ =>
        ⟨(Bindings.observed_removeReader hconsistent r).consistent, ?_⟩
      obtain ⟨before, hbefore, hrelated⟩ := hgone.scope hp
      exact ⟨before, hbefore, hR.trans hrelated (hR.removeReader hconsistent r)⟩
    split
    · exact hremoved
    · exact hremoved.trans hR (ih hremoved.consistent)

theorem evolves_follow (h : t.Consistent) (s : ScopeId) (changes : Changes) :
    t.Evolves R (t.follow s changes).2 := by
  have hlink : ∀ (names : List String) (readers : List ReaderId) {t : ScopeTree}
      {ancestors : List ScopeId}, t.Consistent → t.Evolves R (names.foldl
        (fun linked name => (linked.1 ++ (linked.2.link s name ancestors).1,
          (linked.2.link s name ancestors).2)) (readers, t)).2 := by
    intro names
    induction names with
    | nil => exact fun _ _ _ h => .refl hR h
    | cons name rest ih =>
      intro readers t ancestors h
      have hfirst := evolves_link hR (s := s) name ancestors h
      exact hfirst.trans hR (ih _ hfirst.consistent)
  have hclosed : t.Evolves R
      (changes.closed.foldl (fun u name => u.unlink s name (t.ancestors s)) t) :=
    .foldl hR (fun _ name h => evolves_unlink hR name _ h) changes.closed h
  exact hclosed.trans hR (hlink changes.opened changes.readers hclosed.consistent)

/-! ### Operations -/

theorem evolves_update (h : t.Consistent) (s : ScopeId) {f : Bindings → Changes × Bindings}
    (hf : ∀ b : Bindings, b.Consistent → (f b).2.Consistent ∧ R b (f b).2) :
    t.Evolves R (t.update s f).2 := by
  unfold update
  cases hs : t.get? s with
  | none => exact .refl hR h
  | some scope =>
    obtain ⟨hconsistent, hrelated⟩ := hf scope.bindings (h hs)
    have hset := Evolves.setBindings hR h hs hconsistent hrelated
    exact hset.trans hR (evolves_follow hR hset.consistent s _)

theorem evolves_moveReader (h : t.Consistent) (s : ScopeId) (r : ReaderId) (p : Position) :
    t.Evolves R (t.moveReader s r p).2 :=
  evolves_update hR h s fun _ hb =>
    ⟨(Bindings.observed_moveReader hb r p).consistent, hR.moveReader hb r p⟩

theorem evolves_removeReader (h : t.Consistent) (s : ScopeId) (r : ReaderId) :
    t.Evolves R (t.removeReader s r).2 := by
  have hunheard : t.Evolves R (t.modify s fun scope =>
      { scope with readerListeners := scope.readerListeners.erase r }) :=
    (Evolves.refl hR h).modify_same fun _ => rfl
  exact hunheard.trans hR (evolves_update hR hunheard.consistent s fun _ hb =>
    ⟨(Bindings.observed_removeReader hb r).consistent, hR.removeReader hb r⟩)

theorem evolves_setImported (h : t.Consistent) (s : ScopeId) (name : String) (v : SlotValue) :
    t.Evolves R (t.setImported s name v).2 :=
  evolves_update hR h s fun _ hb =>
    ⟨(Bindings.observed_setImported hb name v).consistent, hR.setImported hb name v⟩

theorem evolves_addReader (h : t.Consistent) {name : String} {p : Position} {r : ReaderId}
    (hadd : t.addReader s name p = some (r, readers, t')) : t.Evolves R t' := by
  obtain ⟨scope, hs, heq⟩ := Option.map_eq_some_iff.mp hadd
  simp only [Prod.mk.injEq] at heq
  obtain ⟨-, heq⟩ := heq
  have hset := Evolves.setBindings hR h hs (Bindings.observed_addReader (h hs) name p).consistent
    (hR.addReader (h hs) name p)
  have hfollow := hset.trans hR (evolves_follow hR hset.consistent s
    (scope.bindings.addReader name p).2.1)
  rwa [heq] at hfollow

theorem evolves_remove (h : t.Consistent) (s : ScopeId) : t.Evolves R (t.remove s) := by
  unfold remove
  exact (Evolves.foldl hR (fun _ name h => evolves_unlink hR name _ h) _ h).erase s

end Imports

end ScopeTree

end MathCanvas
