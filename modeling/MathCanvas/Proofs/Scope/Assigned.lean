import MathCanvas.Proofs.Binding.Assigned
import MathCanvas.Proofs.Scope.Evolve

/-!
# Definitions in a tree of scopes

What `Bindings.Subsides` says of the operations on one scope holds of those on a tree, with all that
they do to the scopes around it: no definition takes a value, except for one that is written
(`assigned_of_write`). All of this needs no more of the tree than that its bindings are consistent.
-/

namespace MathCanvas

namespace ScopeTree

variable {t t' u : ScopeTree} {s p : ScopeId} {scope : Scope} {id : SlotId} {name : String}
  {readers : List ReaderId}

/-- A definition in a scope has a value. -/
def Assigned (t : ScopeTree) (s : ScopeId) (id : SlotId) : Prop :=
  ∃ scope, t.get? s = some scope ∧ scope.bindings.Assigned id

/-- A definition in a scope, and what it stands at. -/
def Holds (t : ScopeTree) (s : ScopeId) (id : SlotId) (v : SlotValue) : Prop :=
  ∃ scope, t.get? s = some scope ∧ scope.bindings.value? id = some v ∧
    scope.bindings.place? id ≠ some .importer

theorem assigned_iff_holds : t.Assigned s id ↔ ∃ v, t.Holds s id v ∧ v ≠ .unset := by
  constructor
  · rintro ⟨scope, hs, ⟨v, hv, hset⟩, hplaced⟩
    exact ⟨v, ⟨scope, hs, hv, hplaced⟩, hset⟩
  · rintro ⟨v, ⟨scope, hs, hv, hplaced⟩, hset⟩
    exact ⟨scope, hs, ⟨v, hv, hset⟩, hplaced⟩

/-- No definition takes another value, new ones have none, and the bindings stay consistent. -/
structure Subsides (t t' : ScopeTree) : Prop where
  consistent : t'.Consistent
  given : ∀ {s : ScopeId} {id : SlotId}, t.Given s id → t'.Given s id
  definition : ∀ {s : ScopeId} {id : SlotId} {v : SlotValue}, t'.Holds s id v →
    t.Holds s id v ∨ v = .unset ∧ ¬t.Given s id

theorem Subsides.refl (h : t.Consistent) : t.Subsides t := ⟨h, id, .inl⟩

theorem Subsides.trans (h : t.Subsides u) (h' : u.Subsides t') : t.Subsides t' where
  consistent := h'.consistent
  given hid := h'.given (h.given hid)
  definition hv := by
    rcases h'.definition hv with hv | ⟨hunset, hnew⟩
    · exact h.definition hv
    · exact .inr ⟨hunset, fun hid => hnew (h.given hid)⟩

/-- No definition takes a value. -/
theorem Subsides.assigned (h : t.Subsides t') (hid : t'.Assigned s id) : t.Assigned s id := by
  obtain ⟨v, hv, hset⟩ := assigned_iff_holds.mp hid
  exact assigned_iff_holds.mpr ⟨v, (h.definition hv).resolve_right fun hnew => hset hnew.1, hset⟩

theorem indifferent_subsides : Bindings.Indifferent Bindings.Subsides where
  refl := .refl
  trans := .trans
  addReader := Bindings.subsides_addReader
  moveReader := Bindings.subsides_moveReader
  removeReader := Bindings.subsides_removeReader
  setImported := Bindings.subsides_setImported

theorem Evolves.subsides (h : t.Evolves Bindings.Subsides t') : t.Subsides t' where
  consistent := h.consistent
  given {s id} hid := by
    refine ⟨hid.1.trans_le h.nextId_le, fun scope' hscope' => ?_⟩
    obtain ⟨scope, hscope, hsubsides⟩ := h.scope hscope'
    exact (hid.2 scope hscope).trans_le hsubsides.nextId_le
  definition := by
    rintro s id v ⟨scope', hscope', hv, hplaced⟩
    obtain ⟨scope, hscope, hsubsides⟩ := h.scope hscope'
    rcases hsubsides.definition hv hplaced with ⟨hv, hplaced⟩ | ⟨hunset, hnew⟩
    · exact .inl ⟨scope, hscope, hv, hplaced⟩
    · exact .inr ⟨hunset, fun hid => absurd (hid.2 scope hscope) (Nat.not_lt.mpr hnew)⟩

/-- What else there is in a scope does not matter. -/
theorem Subsides.modify_same (h : t.Subsides u) {f : Scope → Scope}
    (hf : ∀ scope, (f scope).bindings = scope.bindings) : t.Subsides (u.modify s f) :=
  h.trans ((Evolves.refl indifferent_subsides h.consistent).modify_same hf).subsides

/-! ### Operations -/

theorem subsides_moveDefinition (h : t.Consistent) (s : ScopeId) (id : SlotId) (p : Position) :
    t.Subsides (t.moveDefinition s id p).2 :=
  (evolves_update indifferent_subsides h s fun _ hb =>
    ⟨(Bindings.observed_moveDefinition hb id p).consistent,
      Bindings.subsides_moveDefinition hb id p⟩).subsides

theorem subsides_removeDefinition (h : t.Consistent) (s : ScopeId) (id : SlotId) :
    t.Subsides (t.removeDefinition s id).2 := by
  have hunheard : t.Subsides (t.modify s fun scope =>
      { scope with definitionListeners := scope.definitionListeners.erase id }) :=
    (Subsides.refl h).modify_same fun _ => rfl
  exact hunheard.trans (evolves_update indifferent_subsides hunheard.consistent s fun _ hb =>
    ⟨(Bindings.observed_removeDefinition hb id).consistent,
      Bindings.subsides_removeDefinition hb id⟩).subsides

theorem subsides_moveReader (h : t.Consistent) (s : ScopeId) (r : ReaderId) (p : Position) :
    t.Subsides (t.moveReader s r p).2 := (evolves_moveReader indifferent_subsides h s r p).subsides

theorem subsides_removeReader (h : t.Consistent) (s : ScopeId) (r : ReaderId) :
    t.Subsides (t.removeReader s r).2 := (evolves_removeReader indifferent_subsides h s r).subsides

theorem subsides_setImported (h : t.Consistent) (s : ScopeId) (name : String) (v : SlotValue) :
    t.Subsides (t.setImported s name v).2 :=
  (evolves_setImported indifferent_subsides h s name v).subsides

theorem subsides_addReader (h : t.Consistent) {p : Position} {r : ReaderId}
    (hadd : t.addReader s name p = some (r, readers, t')) : t.Subsides t' :=
  (evolves_addReader indifferent_subsides h hadd).subsides

/-- A definition is added. Its number is a new one, and it has no value. -/
theorem subsides_addDefinition (h : t.Consistent) {p : Position}
    (hadd : t.addDefinition s name p = some (id, readers, t')) :
    t.Subsides t' ∧ ¬t'.Assigned s id ∧
      ∃ scope, t.get? s = some scope ∧ scope.bindings.nextId ≤ id := by
  obtain ⟨scope, hs, heq⟩ := Option.map_eq_some_iff.mp hadd
  simp only [Prod.mk.injEq] at heq
  obtain ⟨rfl, heq⟩ := heq
  have hset := Evolves.setBindings indifferent_subsides h hs
    (Bindings.observed_addDefinition (h hs) name p).consistent
    (Bindings.subsides_addDefinition (h hs) name p)
  have hfollow := (evolves_follow indifferent_subsides hset.consistent s
    (scope.bindings.addDefinition name p).2.1).subsides
  rw [heq] at hfollow
  refine ⟨hset.subsides.trans hfollow, fun hid => ?_, scope, hs, ?_⟩
  · obtain ⟨scope', hs', hid'⟩ := hfollow.assigned hid
    rw [setBindings, get?_modify_self _ hs, Option.some.injEq] at hs'
    subst hs'
    exact Bindings.not_assigned_addDefinition (h hs) name p hid'
  · obtain ⟨c, opened, ho, hadded, -⟩ := Bindings.addDefinition_spec (h hs) name p
    rw [hadded.fresh, ho.nextId]
    split <;> omega

/-- Only the definition that is written can take a value. -/
theorem assigned_of_write (h : t.Consistent) {v : SlotValue} {q : ScopeId} {x : SlotId}
    (hx : (t.write s id v).2.2.Assigned q x) : t.Assigned q x ∨ (q, x) = (s, id) ∧ v ≠ .unset := by
  unfold write at hx
  cases hs : t.get? s with
  | none =>
    rw [hs] at hx
    exact .inl hx
  | some scope =>
    rw [hs] at hx
    obtain ⟨scope', hscope', hx⟩ := hx
    rcases (get?_modify_eq_some_iff hs).mp hscope' with ⟨rfl, rfl⟩ | ⟨-, hold⟩
    · rcases Bindings.assigned_of_setValue (h hs) hx with hx | ⟨rfl, hv⟩
      · exact .inl ⟨scope, hs, hx⟩
      · exact .inr ⟨rfl, hv⟩
    · exact .inl ⟨scope', hold, hx⟩

/-- A definition that is not written keeps its value. -/
theorem holds_of_write (h : t.Consistent) {v u : SlotValue} {q : ScopeId} {x : SlotId}
    (hne : ¬(q = s ∧ x = id)) (hx : (t.write s id v).2.2.Holds q x u) : t.Holds q x u := by
  unfold write at hx
  cases hs : t.get? s with
  | none =>
    rw [hs] at hx
    exact hx
  | some scope =>
    rw [hs] at hx
    obtain ⟨scope', hscope', hvalue, hplaced⟩ := hx
    rcases (get?_modify_eq_some_iff hs).mp hscope' with ⟨rfl, rfl⟩ | ⟨-, hold⟩
    · have hframe := Bindings.setValue_frame (h hs) id v
      have hother : x ≠ id := fun hx => hne ⟨rfl, hx⟩
      have hvalue' : (scope.bindings.setValue id v).2.value? x = some u := hvalue
      rw [Bindings.value?_setValue (h hs), if_neg hother] at hvalue'
      exact ⟨scope, hs, hvalue', hframe.2.1 x ▸ hplaced⟩
    · exact ⟨scope', hold, hvalue, hplaced⟩

/-- A definition that is cleared has no value. -/
theorem not_assigned_clear (h : t.Consistent) (s : ScopeId) (id : SlotId) :
    ¬(t.write s id .unset).2.2.Assigned s id := by
  unfold write
  cases hs : t.get? s with
  | none =>
    rintro ⟨scope, hscope, -⟩
    rw [hs] at hscope
    cases hscope
  | some scope =>
    rintro ⟨scope', hscope', hid⟩
    have hlookup : (t.setBindings s (scope.bindings.setValue id .unset).2).get? s = some scope' :=
      hscope'
    rw [setBindings, get?_modify_self _ hs, Option.some.injEq] at hlookup
    subst hlookup
    exact Bindings.not_assigned_clear (h hs) hid

/-- A new scope has no definitions. -/
theorem subsides_child (h : t.Consistent) (parent : ScopeId) (name : String) (start : Position)
    (closed : Bool) : t.Subsides (t.child parent name start closed).2 := by
  have hget : ∀ {q scope}, (t.child parent name start closed).2.get? q = some scope →
      q = t.nextId ∧ scope.bindings = {} ∨ t.get? q = some scope := by
    intro q scope hq
    have hlookup : (t.scopes.insert t.nextId _)[q]? = some scope := hq
    rw [lookup_insert] at hlookup
    split at hlookup
    · rename_i hnew
      cases hlookup
      exact .inl ⟨hnew.symm, rfl⟩
    · exact .inr hlookup
  refine ⟨fun hq => ?_, fun {q id} hid => ⟨hid.1.trans (Nat.lt_succ_self _), fun scope hq => ?_⟩, ?_⟩
  · rcases hget hq with ⟨-, hempty⟩ | hold
    · exact hempty ▸ Bindings.consistent_empty
    · exact h hold
  · rcases hget hq with ⟨rfl, -⟩ | hold
    · exact absurd hid.1 (Nat.lt_irrefl _)
    · exact hid.2 scope hold
  · rintro q id v ⟨scope, hscope, hv, hplaced⟩
    rcases hget hscope with ⟨-, hempty⟩ | hold
    · rw [hempty] at hv
      simp [Bindings.value?] at hv
    · exact .inl ⟨scope, hold, hv, hplaced⟩

/-! ### Values -/

/-- A reader observes the value of the slot that it is bound to. -/
theorem readerValue_eq_value (hs : t.get? s = some scope) {r : ReaderId}
    (hr : scope.bindings.binding? r = some id) : t.readerValue s r = t.value s id := by
  rw [readerValue, value, hs, Option.bind_some, Option.bind_some, Bindings.readerValue?, hr,
    Option.bind_some]

theorem Holds.value_eq {v : SlotValue} (h : t.Holds s id v) : t.value s id = v := by
  obtain ⟨scope, hs, hv, -⟩ := h
  rw [value, hs, Option.bind_some, hv, Option.getD_some]

/-- A definition that has no value is unset, or gone. -/
theorem value_of_not_assigned (hlent : t.LentSlot s id) (h : ¬t.Assigned s id) :
    t.value s id = .unset := by
  unfold value
  cases hs : t.get? s with
  | none => rfl
  | some scope =>
    rw [Option.bind_some]
    cases hv : scope.bindings.value? id with
    | none => rfl
    | some v =>
      rw [Option.getD_some]
      by_contra hset
      exact h ⟨scope, hs, ⟨v, hv, hset⟩, hlent.not_importer scope hs⟩

end ScopeTree

end MathCanvas
