import MathCanvas.Proofs.Scope.Enrollment

/-!
# Links and the names in use

In a tree that is tied, a scope has a list for a name exactly if somebody is enrolled under the name
in it, or in a scope inside from which the name is looked up in it (`ScopeTree.WellTied.used_iff`):
no list is kept for links alone. And no link is left over: a reader that fed an importer still feeds
it, or is gone (`ScopeTree.Succeeds.feeds_or_gone`).
-/

namespace MathCanvas

namespace Bindings

/-- A name is in use if it has a definition or a reader, and only then. -/
theorem Consistent.slotsOf_ne_nil_iff {b : Bindings} (hb : b.Consistent) (name : String) :
    b.slotsOf name ≠ [] ↔
      (∃ x y, (x, y) ∈ b.sequence name) ∨ ∃ r y, b.anchor? r = some (name, y) := by
  constructor
  · intro hne
    obtain ⟨importer, rest, hids, -, hplaced⟩ := hb.exists_cons hne
    cases rest with
    | nil => exact .inr (hasReader_iff_anchor?.mp (hb.hasReader hids))
    | cons x rest =>
      obtain ⟨y, hy⟩ := hplaced x List.mem_cons_self
      exact .inl ⟨x, y, mem_sequence_iff.mpr ⟨by simp [hids], hy⟩⟩
  · rintro (⟨x, y, hx⟩ | ⟨r, y, hr⟩)
    · exact List.ne_nil_of_mem (mem_sequence_iff.mp hx).1
    · exact hb.toSound.ne_nil_of_anchor? hr

end Bindings

namespace ScopeTree

variable {t t' u : ScopeTree} {s p q c : ScopeId} {scope around : Scope} {r x : ReaderId}
  {name n : String} {y : Position} {k : Role}

/-! ### Names in use -/

/-- What is not defined in the second scope is looked up in the first one: no closed scope lies
between them. -/
inductive SeenFrom (t : ScopeTree) (s : ScopeId) : ScopeId → Prop
  | here : SeenFrom t s s
  | inside {p q : ScopeId} {scope : Scope} (seen : SeenFrom t s p) (get : t.get? q = some scope)
      (opened : scope.closed = false) (parent : scope.ancestors.head? = some p) : SeenFrom t s q

/-- Somebody is enrolled under a name in a scope, or in one inside that sees the scope. -/
def Needs (t : ScopeTree) (s : ScopeId) (name : String) : Prop :=
  ∃ q x y k, t.SeenFrom s q ∧ t.Enrolled q x name y k

/-- A scope sees what its parent sees. -/
theorem SeenFrom.of_parent (hs : t.get? q = some scope) (hopen : scope.closed = false)
    (hparent : scope.ancestors.head? = some s) {c : ScopeId} (h : t.SeenFrom q c) :
    t.SeenFrom s c := by
  induction h with
  | here => exact .inside .here hs hopen hparent
  | inside _ get opened parent ih => exact .inside ih get opened parent

section WellTied

variable (h : t.WellTied)
include h

/-- A name that is in use inside is in use where it is looked up. -/
theorem WellTied.used_of_seenFrom (hseen : t.SeenFrom s q)
    (hused : ∃ scope, t.get? q = some scope ∧ scope.bindings.slotsOf name ≠ []) :
    ∃ scope, t.get? s = some scope ∧ scope.bindings.slotsOf name ≠ [] := by
  induction hseen with
  | here => exact hused
  | @inside p q scope seen get opened parent ih =>
    obtain ⟨scope', get', hne⟩ := hused
    cases get.symm.trans get'
    have hanc : scope.ancestors ≠ [] := fun hnil => by simp [hnil] at parent
    obtain ⟨r, hr⟩ := (h.exact not_false get).imports_iff.mpr ⟨opened, hanc, hne⟩
    obtain ⟨around, scope', haround, -, hanchor, -⟩ := h.fed ⟨scope, get, parent, hr⟩
    exact ih ⟨around, haround, (h.consistent haround).toSound.ne_nil_of_anchor? hanchor⟩

/-- A name that is in use is needed. Links come from scopes further inside, which have higher
numbers. -/
theorem WellTied.needs_of_used {s : ScopeId} {scope : Scope} (hs : t.get? s = some scope)
    (hne : scope.bindings.slotsOf name ≠ []) : t.Needs s name := by
  rcases ((h.consistent hs).slotsOf_ne_nil_iff name).mp hne with ⟨x, y, hx⟩ | ⟨r, y, hr⟩
  · refine ⟨s, x, y, .definition, .here, ?_⟩
    rw [enrolled_definition, sequence_of_get? hs]
    exact hx
  by_cases hfeeds : ∃ c n, t.Feeds s r c n
  · -- the reader is a link, and the name is in use inside
    obtain ⟨c, n, hfeeds⟩ := hfeeds
    obtain ⟨around, inner, haround, hc, hanchor, -⟩ := h.fed hfeeds
    cases hs.symm.trans haround
    obtain ⟨rfl, -⟩ : name = n ∧ y = inner.start := by simpa [hr] using hanchor
    obtain ⟨inner', hc', hparent, himports⟩ := id hfeeds
    cases hc.symm.trans hc'
    obtain ⟨hopen, -, hused⟩ := (h.exact not_false hc).imports_iff.mp ⟨r, himports⟩
    have hlt : s < c := h.lt_of_feeds hfeeds
    obtain ⟨q, x, z, k, hseen, hx⟩ := WellTied.needs_of_used hc hused
    exact ⟨q, x, z, k, hseen.of_parent hc hopen hparent, hx⟩
  · refine ⟨s, r, y, .reader, .here, ?_, fun c n hf => hfeeds ⟨c, n, hf⟩⟩
    rw [anchor?_of_get? hs]
    exact hr
termination_by t.nextId - s
decreasing_by exact Nat.sub_lt_sub_left (h.id_lt hs) hlt

/-- A scope has a list for a name exactly if somebody needs it. -/
theorem WellTied.used_iff (hs : t.get? s = some scope) :
    scope.bindings.slotsOf name ≠ [] ↔ t.Needs s name := by
  refine ⟨h.needs_of_used hs, ?_⟩
  rintro ⟨q, x, y, k, hseen, hx⟩
  obtain ⟨inner, hq⟩ := Option.ne_none_iff_exists'.mp hx.get?_ne_none
  have hused : inner.bindings.slotsOf name ≠ [] := by
    refine ((h.consistent hq).slotsOf_ne_nil_iff name).mpr ?_
    cases k with
    | definition =>
      rw [enrolled_definition, sequence_of_get? hq] at hx
      exact .inl ⟨x, y, hx⟩
    | reader =>
      have hanchor := hx.1
      rw [anchor?_of_get? hq] at hanchor
      exact .inr ⟨x, y, hanchor⟩
  obtain ⟨scope', hs', hne⟩ := h.used_of_seenFrom hseen ⟨inner, hq, hused⟩
  cases hs.symm.trans hs'
  exact hne

end WellTied

/-! ### Links that end -/

/-- The second tree comes after the first one: numbers are not given out again, and what was a link
does not become a reader of somebody. -/
structure Succeeds (t t' : ScopeTree) : Prop extends Extends t t' where
  reads : ∀ {p : ScopeId} {r : ReaderId} {n : String} {y : Position}, t.Given p r →
    t'.Reads p r n y → ∃ old, t.Reads p r n old

theorem Succeeds.refl (t : ScopeTree) : t.Succeeds t :=
  { Extends.refl t with reads := fun _ hx => ⟨_, hx⟩ }

theorem Succeeds.trans (h : t.Succeeds u) (h' : u.Succeeds t') : t.Succeeds t' :=
  { h.toExtends.trans h'.toExtends with
    reads := fun hr hx => by
      obtain ⟨middle, hmiddle⟩ := h'.reads (hr.extend h.toExtends) hx
      exact h.reads hr hmiddle }

/-- No link is left over: it still feeds its importer, or the reader is gone. -/
theorem Succeeds.feeds_or_gone (h : t.Succeeds t') {loose : ScopeId → String → Prop}
    (ht : t.Tied loose) (hfeeds : t.Feeds p r s name) :
    t'.Feeds p r s name ∨ t'.anchor? p r = none := by
  have hgiven := ht.given_of_feeds hfeeds
  cases hanchor : t'.anchor? p r with
  | none => exact .inr rfl
  | some a =>
    left
    by_contra hnot
    obtain ⟨old, hold⟩ : ∃ old, t.Reads p r a.1 old := by
      refine h.reads hgiven ⟨hanchor, fun c n hf => hnot ?_⟩
      -- whatever it feeds now it fed before, and it fed one importer only
      obtain ⟨rfl, rfl⟩ := ht.feeds_inj hfeeds (h.feeds hgiven hf)
      exact hf
    exact hold.2 s name hfeeds

/-! ### What operations do to links -/

theorem Succeeds.of_rolls (h : t.Extends t') (hrolls : t.SameRolls t') : t.Succeeds t' :=
  { h with reads := fun _ hx => ⟨_, hrolls.enrolled (k := .reader) |>.mp hx⟩ }

theorem Succeeds.of_admits (h : t.Extends t') (hadmits : t.Admits t' s x name y k)
    (hnew : k = .reader → ¬t.Given s x) : t.Succeeds t' :=
  { h with
    reads := fun {p r n z} hr hx => by
      rcases hadmits.enrolled (k := .reader) |>.mp hx with hx | ⟨⟨hk, rfl, rfl⟩, -⟩
      · exact ⟨z, hx⟩
      · exact absurd hr (hnew hk.symm) }

theorem Succeeds.of_shifts (h : t.Extends t') (hshifts : t.Shifts t' s x y k) : t.Succeeds t' :=
  { h with
    reads := fun {p r n z} _ hx => by
      by_cases hself : Role.reader = k ∧ p = s ∧ r = x
      · obtain ⟨rfl, rfl, rfl⟩ := hself
        exact hshifts.back hx
      · exact ⟨z, (hshifts.others (k := .reader) hself).mp hx⟩ }

theorem Succeeds.of_quits (h : t.Extends t') (hquits : t.Quits t' s x k) : t.Succeeds t' :=
  { h with reads := fun _ hx => ⟨_, (hquits.enrolled (k := .reader) |>.mp hx).1⟩ }

section WellTied

variable (h : t.WellTied)
include h

theorem succeeds_child (parent : ScopeId) (label : String) (start : Position) (closed : Bool) :
    t.Succeeds (t.child parent label start closed).2 :=
  .of_rolls (advances_child h parent label start closed 0).toExtends
    (sameRolls_child h parent label start closed)

theorem succeeds_addDefinition {id : SlotId} {readers : List ReaderId}
    (hadd : t.addDefinition s name y = some (id, readers, t')) : t.Succeeds t' :=
  .of_admits (advances_addDefinition h hadd).1.toExtends (admits_addDefinition h hadd) (by rintro ⟨⟩)

theorem succeeds_addReader {readers : List ReaderId}
    (hadd : t.addReader s name y = some (r, readers, t')) : t.Succeeds t' :=
  .of_admits (advances_addReader h hadd).1.toExtends (admits_addReader h hadd)
    fun _ => not_given_addReader h hadd

theorem succeeds_moveDefinition (s : ScopeId) (id : SlotId) (y : Position) :
    t.Succeeds (t.moveDefinition s id y).2 :=
  .of_shifts (advances_moveDefinition h s id y).toExtends (shifts_moveDefinition h s id y)

theorem succeeds_removeDefinition (s : ScopeId) (id : SlotId) :
    t.Succeeds (t.removeDefinition s id).2 :=
  .of_quits (advances_removeDefinition h s id).toExtends (quits_removeDefinition h s id)

theorem succeeds_moveReader (hr : t.Lent s r) (y : Position) : t.Succeeds (t.moveReader s r y).2 :=
  .of_shifts (advances_moveReader h hr y).toExtends (shifts_moveReader h hr y)

theorem succeeds_removeReader (hr : t.Lent s r) : t.Succeeds (t.removeReader s r).2 :=
  .of_quits (advances_removeReader h hr).toExtends (quits_removeReader h hr)

theorem succeeds_write {id : SlotId} (hid : t.LentSlot s id) (v : SlotValue) :
    t.Succeeds (t.write s id v).2.2 :=
  .of_rolls (advances_write h hid v).toExtends (sameRolls_write h s id v)

end WellTied

end ScopeTree

end MathCanvas
