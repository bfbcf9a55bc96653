import MathCanvas.Proofs.Scope.Enrollment
import MathCanvas.Proofs.Scope.Listeners

/-!
# Scopes that are made

When the client makes scopes, all that is there stays, and the new scopes are blank
(`ScopeTree.Grows`): nobody is enrolled in them, and nobody listens.
-/

namespace MathCanvas

/-- Nothing is enrolled in a scope, and nobody listens. -/
structure Scope.Blank (scope : Scope) : Prop where
  bindings : scope.bindings = {}
  readerListeners : scope.readerListeners = {}
  definitionListeners : scope.definitionListeners = {}
  imports : scope.imports = {}

namespace ScopeTree

variable {t t' t'' : ScopeTree} {p q c : ScopeId} {scope : Scope} {name : String} {r : ReaderId}

/-- Scopes are made that are still blank. -/
structure Grows (t t' : ScopeTree) : Prop where
  nextId_le : t.nextId ≤ t'.nextId
  get?_eq : ∀ {q : ScopeId}, q < t.nextId → t'.get? q = t.get? q
  blank : ∀ {q : ScopeId} {scope : Scope}, t.nextId ≤ q → t'.get? q = some scope → scope.Blank

namespace Grows

theorem refl (h : t.WellTied) : t.Grows t where
  nextId_le := le_rfl
  get?_eq _ := rfl
  blank hq hscope := absurd (h.id_lt hscope) (Nat.not_lt.mpr hq)

theorem trans (h : t.Grows t') (h' : t'.Grows t'') : t.Grows t'' where
  nextId_le := h.nextId_le.trans h'.nextId_le
  get?_eq hq := (h'.get?_eq (hq.trans_le h.nextId_le)).trans (h.get?_eq hq)
  blank {q scope} hq hscope := by
    by_cases hlt : q < t'.nextId
    · exact h.blank hq (h'.get?_eq hlt ▸ hscope)
    · exact h'.blank (Nat.not_lt.mp hlt) hscope

theorem child (h : t.WellTied) (parent : ScopeId) (name : String) (start : Position)
    (closed : Bool) : t.Grows (t.child parent name start closed).2 where
  nextId_le := Nat.le_succ _
  get?_eq {q} hq := by rw [get?_child, if_neg (Nat.ne_of_gt hq)]
  blank {q scope} hq hscope := by
    rw [get?_child] at hscope
    split at hscope
    · cases hscope
      exact ⟨rfl, rfl, rfl, rfl⟩
    · exact absurd (h.id_lt hscope) (Nat.not_lt.mpr hq)

section WellTied

variable (h : t.Grows t') (htied : t.WellTied)
include h htied

theorem get?_of_some (hscope : t.get? q = some scope) : t'.get? q = some scope := by
  rw [h.get?_eq (htied.id_lt hscope), hscope]

/-- What makes no difference between a blank scope and none is as it was. -/
theorem congr {α : Type} {f : Option Scope → α}
    (hf : ∀ scope : Scope, scope.Blank → f (some scope) = f none) (q : ScopeId) :
    f (t'.get? q) = f (t.get? q) := by
  by_cases hlt : q < t.nextId
  · rw [h.get?_eq hlt]
  · have hnone : t.get? q = none := by
      rw [Option.eq_none_iff_forall_ne_some]
      exact fun scope hscope => hlt (htied.id_lt hscope)
    rw [hnone]
    cases hq : t'.get? q with
    | none => rfl
    | some scope => exact hf scope (h.blank (Nat.not_lt.mp hlt) hq)

theorem sequence_eq (q : ScopeId) (name : String) : t'.sequence q name = t.sequence q name := by
  have helim : ∀ u : ScopeTree, u.sequence q name
      = (u.get? q).elim [] (·.bindings.sequence name) := by
    intro u
    unfold sequence
    cases u.get? q <;> rfl
  rw [helim, helim]
  exact h.congr htied (f := fun found => found.elim [] (·.bindings.sequence name))
    (fun scope hblank => by rw [Option.elim_some, hblank.bindings]; rfl) q

theorem anchor?_eq (q : ScopeId) (r : ReaderId) : t'.anchor? q r = t.anchor? q r :=
  h.congr htied (f := fun found => found.bind (·.bindings.anchor? r))
    (fun scope hblank => by rw [Option.bind_some, hblank.bindings]; rfl) q

theorem listeners_eq (q : ScopeId) (r : ReaderId) : t'.listeners q r = t.listeners q r :=
  h.congr htied (f := fun found => (found.bind (·.readerListeners[r]?)).getD [])
    (fun scope hblank => by rw [Option.bind_some, hblank.readerListeners]; rfl) q

theorem definitionListeners_eq (q : ScopeId) (x : SlotId) :
    t'.definitionListeners q x = t.definitionListeners q x :=
  h.congr htied (f := fun found => (found.bind (·.definitionListeners[x]?)).getD [])
    (fun scope hblank => by rw [Option.bind_some, hblank.definitionListeners]; rfl) q

theorem feeds_iff : t'.Feeds p r c name ↔ t.Feeds p r c name := by
  constructor
  · rintro ⟨scope, hscope, hparent, himport⟩
    by_cases hlt : c < t.nextId
    · exact ⟨scope, h.get?_eq hlt ▸ hscope, hparent, himport⟩
    · rw [(h.blank (Nat.not_lt.mp hlt) hscope).imports] at himport
      simp at himport
  · rintro ⟨scope, hscope, hparent, himport⟩
    exact ⟨scope, h.get?_of_some htied hscope, hparent, himport⟩

/-- Those who are enrolled stay so. -/
theorem sameRolls : t.SameRolls t' :=
  sameRolls_of (h.sequence_eq htied) fun {s x n y} => by
    rw [Reads, Reads, h.anchor?_eq htied]
    exact and_congr_right' (forall₂_congr fun c n => not_congr (h.feeds_iff htied))

end WellTied

end Grows

end ScopeTree

end MathCanvas
