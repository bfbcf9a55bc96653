import MathCanvas.Proofs.Scope.Enrollment

/-!
# Where readers draw from

A reader observes a slot of its own scope. If this is the importer of a name, what it holds comes
from a reader in the parent, and so on outwards: the reader *draws on* all the slots on this way
(`ScopeTree.Draws`). A slot that is observed stands at or before its reader (`le_of_binding?`), and
a way that leads through importers goes to scopes around (`Draws.eq_or_mem_ancestors`).
-/

namespace MathCanvas

namespace ScopeTree

variable {t : ScopeTree} {s p q : ScopeId} {scope : Scope} {r r' : ReaderId} {x i : SlotId}
  {name n : String} {y z : Position} {loose : ScopeId → String → Prop}

/-- The slot that a reader observes. -/
def binding? (t : ScopeTree) (s : ScopeId) (r : ReaderId) : Option SlotId :=
  (t.get? s).bind (·.bindings.binding? r)

/-- A reader draws on the slot that it observes, and if this is an importer, on whatever the reader
draws on that feeds it. -/
inductive Draws (t : ScopeTree) : ScopeId → ReaderId → ScopeId → SlotId → Prop
  | observe {s : ScopeId} {r : ReaderId} {x : SlotId} (observed : t.binding? s r = some x) :
      Draws t s r s x
  | outside {s p q : ScopeId} {r r' : ReaderId} {scope : Scope} {i x : SlotId} {name : String}
      (observed : t.binding? s r = some i) (inside : t.get? s = some scope)
      (importer : scope.bindings.importer? name = some i) (feeds : t.Feeds p r' s name)
      (draws : Draws t p r' q x) : Draws t s r q x

theorem binding?_of_get? (hs : t.get? s = some scope) (r : ReaderId) :
    t.binding? s r = scope.bindings.binding? r := by
  rw [binding?, hs, Option.bind_some]

/-- A reader that is there observes a slot of its name. -/
theorem exists_binding? (h : t.Consistent) (hr : t.anchor? s r = some (name, y)) :
    ∃ scope x, t.get? s = some scope ∧ t.binding? s r = some x ∧
      scope.bindings.lastUpTo? name y = some x := by
  obtain ⟨scope, hs, hanchor⟩ := Option.bind_eq_some_iff.mp hr
  obtain ⟨reader, hreader, heq⟩ := Option.map_eq_some_iff.mp hanchor
  simp only [Reader.anchor, Prod.mk.injEq] at heq
  obtain ⟨rfl, rfl⟩ := heq
  refine ⟨scope, reader.slot, hs, ?_, (h hs).within hreader⟩
  rw [binding?_of_get? hs, Bindings.binding?, hreader, Option.map_some]

/-- A definition that is observed has the name of its reader, and stands at the reader or before. -/
theorem le_of_binding? (h : t.Consistent) (hr : t.anchor? s r = some (name, y))
    (hobserved : t.binding? s r = some x) (hx : (x, z) ∈ t.sequence s n) : n = name ∧ z ≤ y := by
  obtain ⟨scope, x', hs, hobserved', hlast⟩ := exists_binding? h hr
  obtain rfl := Option.some.inj (hobserved.symm.trans hobserved')
  rw [sequence_of_get? hs] at hx
  obtain ⟨hmem, hplace⟩ := Bindings.mem_sequence_iff.mp hx
  have hup := List.of_mem_filter (List.mem_of_getLast? hlast)
  obtain ⟨place, hplace', hle⟩ := Bindings.isUpTo_eq_true_iff.mp hup
  obtain rfl := Option.some.inj (hplace.symm.trans hplace')
  obtain ⟨slot, hslot, hname⟩ := (h hs).stored_of_mem hmem
  obtain ⟨slot', hslot', hname'⟩ := (h hs).stored_of_mem (Bindings.mem_of_lastUpTo? hlast)
  cases hslot.symm.trans hslot'
  exact ⟨hname.symm.trans hname', SlotPlace.placed_le_placed.mp hle⟩

/-- A reader draws on slots in its own scope and in those around it. -/
theorem Draws.eq_or_mem_ancestors (h : t.Tied loose) (hdraws : t.Draws s r q x) :
    q = s ∨ q ∈ t.ancestors s := by
  induction hdraws with
  | observe => exact .inl rfl
  | @outside s p q r r' scope i x name _ inside _ feeds _ ih =>
    right
    obtain ⟨scope', hs, hparent, -⟩ := feeds
    cases hanc : scope'.ancestors with
    | nil => simp [hanc] at hparent
    | cons head further =>
      obtain rfl : head = p := by simpa [hanc] using hparent
      obtain ⟨-, around, hp, hfurther⟩ := h.parent hs hanc
      rw [ancestors_of_get? hs, hanc]
      rw [ancestors_of_get? hp, hfurther] at ih
      exact List.mem_cons.mpr ih

end ScopeTree

end MathCanvas
