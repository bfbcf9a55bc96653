import MathCanvas.Proofs.Binding.Run
import MathCanvas.Proofs.Binding.Sequence
import MathCanvas.Proofs.Scope.Evolve
import MathCanvas.Proofs.Scope.Shape

/-!
# Sequences of definitions in a tree of scopes

The three operations on definitions change one sequence of one scope, as they do in the bindings of
this scope alone. All that they and the other operations set off in the scopes around leaves the
sequences as they are (`Evolves.sequence_eq`).
-/

namespace MathCanvas

/-- No definition comes, goes or moves. -/
def Bindings.SameSequences (b b' : Bindings) : Prop :=
  ∀ name : String, b'.sequence name = b.sequence name

theorem indifferent_sameSequences : Bindings.Indifferent Bindings.SameSequences where
  refl _ _ := rfl
  trans h h' name := (h' name).trans (h name)
  addReader := Bindings.sequence_addReader
  moveReader := Bindings.sequence_moveReader
  removeReader := Bindings.sequence_removeReader
  setImported := Bindings.sequence_setImported

namespace ScopeTree

variable {t t' : ScopeTree} {s q : ScopeId} {scope : Scope} {id : SlotId} {name n : String}
  {p old : Position} {readers : List ReaderId}

/-- The definitions of a name in a scope in order; none if there is no such scope. -/
def sequence (t : ScopeTree) (s : ScopeId) (name : String) : List (SlotId × Position) :=
  match t.get? s with
  | some scope => scope.bindings.sequence name
  | none => []

theorem sequence_of_get? (hs : t.get? s = some scope) (name : String) :
    t.sequence s name = scope.bindings.sequence name := by
  rw [sequence, hs]

theorem sequence_of_none (hs : t.get? s = none) (name : String) : t.sequence s name = [] := by
  rw [sequence, hs]

theorem exists_of_mem_sequence {x : SlotId × Position} (h : x ∈ t.sequence s name) :
    ∃ scope, t.get? s = some scope ∧ x ∈ scope.bindings.sequence name := by
  unfold sequence at h
  split at h
  · rename_i scope hs
    exact ⟨scope, hs, h⟩
  · cases h

section Consistent

variable (h : t.Consistent)
include h

theorem eq_of_mem_sequence (hp : (id, p) ∈ t.sequence s name) (hold : (id, old) ∈ t.sequence s n) :
    name = n ∧ p = old := by
  obtain ⟨scope, hs, hmem⟩ := exists_of_mem_sequence hp
  rw [sequence_of_get? hs] at hold
  exact Bindings.eq_of_mem_sequence (h hs) hmem hold

end Consistent

/-! ### What leaves the sequences as they are -/

/-- A scope that is gone has no definitions any more. -/
theorem Evolves.sequence_or (h : t.Evolves Bindings.SameSequences t') (s : ScopeId) (name : String) :
    t'.sequence s name = t.sequence s name ∨ t'.get? s = none := by
  cases hs' : t'.get? s with
  | none => exact .inr rfl
  | some scope' =>
    obtain ⟨scope, hs, hsame⟩ := h.scope hs'
    left
    rw [sequence_of_get? hs', sequence_of_get? hs, hsame]

theorem Evolves.sequence_eq (h : t.Evolves Bindings.SameSequences t') (hshape : t.SameShape t')
    (s : ScopeId) (name : String) : t'.sequence s name = t.sequence s name := by
  rcases h.sequence_or s name with heq | hnone
  · exact heq
  · rw [sequence_of_none hnone, sequence_of_none ((hshape.get?_eq_none_iff s).mp hnone)]

theorem evolves_write (h : t.Consistent) (s : ScopeId) (id : SlotId) (v : SlotValue) :
    t.Evolves Bindings.SameSequences (t.write s id v).2.2 := by
  unfold write
  split
  · rename_i hs
    exact .setBindings indifferent_sameSequences h hs ((h hs).setValue id v)
      (Bindings.sequence_setValue (h hs) id v)
  · exact .refl indifferent_sameSequences h

/-! ### The operations on definitions -/

theorem sequence_setBindings (hs : t.get? s = some scope) (b : Bindings) (q : ScopeId) (n : String) :
    (t.setBindings s b).sequence q n = if q = s then b.sequence n else t.sequence q n := by
  unfold sequence setBindings
  rw [get?_modify]
  by_cases hq : q = s
  · subst hq
    rw [if_pos rfl, if_pos rfl, hs]
    rfl
  · rw [if_neg (Ne.symm hq), if_neg hq]

/-- The bindings of a scope change, and its imports follow. -/
theorem sequence_follow (h : t.Consistent) (hs : t.get? s = some scope) {b : Bindings}
    (hb : b.Consistent) (changes : Changes) (q : ScopeId) (n : String) :
    ((t.setBindings s b).follow s changes).2.sequence q n =
      if q = s then b.sequence n else t.sequence q n := by
  have hset : (t.setBindings s b).Consistent := by
    intro q scope' hq
    rw [setBindings] at hq
    rcases (get?_modify_eq_some_iff hs).mp hq with ⟨-, rfl⟩ | ⟨-, hold⟩
    · exact hb
    · exact h hold
  rw [(evolves_follow indifferent_sameSequences hset s changes).sequence_eq (sameShape_follow _ s _),
    sequence_setBindings hs]

theorem sequence_addDefinition (h : t.Consistent)
    (hadd : t.addDefinition s name p = some (id, readers, t')) :
    Joins (id, p) (t.sequence s name) (t'.sequence s name) ∧
      (∀ q n, (q, n) ≠ (s, name) → t'.sequence q n = t.sequence q n) ∧
      ∀ n q, (id, q) ∉ t.sequence s n := by
  obtain ⟨scope, hs, heq⟩ := Option.map_eq_some_iff.mp hadd
  simp only [Prod.mk.injEq] at heq
  obtain ⟨rfl, heq⟩ := heq
  have hseq := sequence_follow h hs (Bindings.observed_addDefinition (h hs) name p).consistent
    (scope.bindings.addDefinition name p).2.1
  rw [heq] at hseq
  obtain ⟨hjoins, hothers, hfresh⟩ := Bindings.sequence_addDefinition (h hs) name p
  refine ⟨?_, fun q n hne => ?_, fun n q => ?_⟩
  · rw [hseq, if_pos rfl, sequence_of_get? hs]
    exact hjoins
  · rw [hseq]
    by_cases hq : q = s
    · rw [if_pos hq, hq, sequence_of_get? hs]
      exact hothers n fun hn => hne (by rw [hq, hn])
    · rw [if_neg hq]
  · rw [sequence_of_get? hs]
    exact hfresh n q

/-- A definition that moves within its place stays where it is. -/
theorem sequence_moveDefinition_of_same (h : t.Consistent) (hmem : (id, old) ∈ t.sequence s name)
    (hsame : old.same p = true) (q : ScopeId) (n : String) :
    (t.moveDefinition s id p).2.sequence q n = t.sequence q n := by
  obtain ⟨scope, hs, hscope⟩ := exists_of_mem_sequence hmem
  unfold moveDefinition update
  rw [hs]
  simp only
  rw [sequence_follow h hs (Bindings.observed_moveDefinition (h hs) id p).consistent,
    Bindings.sequence_moveDefinition_of_same hscope hsame]
  split
  · rename_i hq
    rw [hq, sequence_of_get? hs]
  · rfl

/-- A definition that moves to another place is taken out and put in again. -/
theorem sequence_moveDefinition (h : t.Consistent) (hmem : (id, old) ∈ t.sequence s name)
    (hsame : old.same p = false) :
    Joins (id, p) ((t.sequence s name).filter (·.1 != id))
        ((t.moveDefinition s id p).2.sequence s name) ∧
      ∀ q n, (q, n) ≠ (s, name) → (t.moveDefinition s id p).2.sequence q n = t.sequence q n := by
  obtain ⟨scope, hs, hscope⟩ := exists_of_mem_sequence hmem
  obtain ⟨hjoins, hothers⟩ := Bindings.sequence_moveDefinition (h hs) hscope hsame
  unfold moveDefinition update
  rw [hs]
  simp only
  have hseq := sequence_follow h hs (Bindings.observed_moveDefinition (h hs) id p).consistent
    (scope.bindings.moveDefinition id p).1
  refine ⟨?_, fun q n hne => ?_⟩
  · rw [hseq, if_pos rfl, sequence_of_get? hs]
    exact hjoins
  · rw [hseq]
    by_cases hq : q = s
    · rw [if_pos hq, hq, sequence_of_get? hs]
      exact hothers n fun hn => hne (by rw [hq, hn])
    · rw [if_neg hq]

/-- The definition then stands at its new position, or at one of the same place. -/
theorem mem_sequence_moveDefinition (h : t.Consistent) (hmem : (id, old) ∈ t.sequence s name)
    (p : Position) : ∃ new : Position, new.same p = true ∧
      ∀ q n a, a ∈ (t.moveDefinition s id p).2.sequence q n ↔
        (q, n) = (s, name) ∧ a = (id, new) ∨ (q, a.1) ≠ (s, id) ∧ a ∈ t.sequence q n := by
  have hself : ∀ {q n} {a : SlotId × Position}, a ∈ t.sequence q n → (q, a.1) = (s, id) →
      (q, n) = (s, name) ∧ a = (id, old) := by
    rintro q n ⟨x, r⟩ ha heq
    cases heq
    obtain ⟨rfl, rfl⟩ := eq_of_mem_sequence h ha hmem
    exact ⟨rfl, rfl⟩
  by_cases hsame : old.same p = true
  · refine ⟨old, hsame, fun q n a => ?_⟩
    rw [sequence_moveDefinition_of_same h hmem hsame]
    constructor
    · intro ha
      by_cases heq : (q, a.1) = (s, id)
      · exact .inl (hself ha heq)
      · exact .inr ⟨heq, ha⟩
    · rintro (⟨heq, rfl⟩ | ⟨-, ha⟩)
      · cases heq
        exact hmem
      · exact ha
  · obtain ⟨hjoins, hothers⟩ := sequence_moveDefinition h hmem (by simpa using hsame)
    refine ⟨p, by simp [Position.same], fun q n a => ?_⟩
    by_cases hqn : (q, n) = (s, name)
    · cases hqn
      rw [hjoins.mem_iff, List.mem_filter, bne_iff_ne]
      simp [and_comm]
    · rw [hothers q n hqn]
      constructor
      · exact fun ha => .inr ⟨fun heq => hqn (hself ha heq).1, ha⟩
      · rintro (⟨heq, -⟩ | ⟨-, ha⟩)
        · exact absurd heq hqn
        · exact ha

theorem sequence_removeDefinition (h : t.Consistent) (s : ScopeId) (id : SlotId) (q : ScopeId)
    (n : String) : (t.removeDefinition s id).2.sequence q n =
      if q = s then (t.sequence q n).filter (·.1 != id) else t.sequence q n := by
  unfold removeDefinition update
  set u := t.modify s fun scope =>
    { scope with definitionListeners := scope.definitionListeners.erase id } with hu
  have hunheard : t.Evolves Bindings.SameSequences u :=
    (Evolves.refl indifferent_sameSequences h).modify_same fun _ => rfl
  have hsame : ∀ q n, u.sequence q n = t.sequence q n :=
    hunheard.sequence_eq (.of_modify fun _ => ⟨rfl, rfl, rfl⟩)
  cases hs : u.get? s with
  | none =>
    simp only
    rw [hsame]
    by_cases hq : q = s
    · rw [if_pos hq, hq, ← hsame, sequence_of_none hs, List.filter_nil]
    · rw [if_neg hq]
  | some scope =>
    have hconsistent := hunheard.consistent hs
    simp only
    rw [sequence_follow hunheard.consistent hs
        (Bindings.observed_removeDefinition hconsistent id).consistent,
      Bindings.sequence_removeDefinition hconsistent, ← hsame]
    by_cases hq : q = s
    · rw [if_pos hq, if_pos hq, hq, sequence_of_get? hs]
    · rw [if_neg hq, if_neg hq]

/-- A new scope has no definitions. -/
theorem sequence_child (hfresh : t.get? t.nextId = none) (parent : ScopeId) (label : String)
    (start : Position) (closed : Bool) (q : ScopeId) (n : String) :
    (t.child parent label start closed).2.sequence q n = t.sequence q n := by
  unfold sequence
  by_cases hq : q = t.nextId
  · rw [hq, hfresh, child]
    simp only
    rw [get?, lookup_insert_self]
    rfl
  · rw [child, get?]
    simp only
    rw [lookup_insert_of_ne _ _ (Ne.symm hq)]
    rfl

end ScopeTree

end MathCanvas
