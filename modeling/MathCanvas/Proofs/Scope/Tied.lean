import MathCanvas.Proofs.Binding.Outside
import MathCanvas.Scope.Tree

/-!
# Imports in step with names

In a tree of scopes that is `Tied`, an open scope with a parent imports just the names that are in
use in it, each through a reader in the parent that stands where the scope starts (`Feeds`) and
that nobody else listens to. Operations bring a name into use or put it out of use before they
link or unlink its import; until then the name is *loose* in its scope.

That the importer has the value of its reader is no part of this. An importer is told of a new
value, and until it is, the link is `Unsettled`. `Extends` says what every operation on a tree keeps:
numbers are not given out again, and neither a reader nor a slot that was made for others becomes
part of an import (`Lent.extend`, `LentSlot.extend`).
-/

namespace MathCanvas

/-- Whether a scope has to import a name. -/
def Scope.Imports (scope : Scope) (name : String) : Prop :=
  scope.closed = false ∧ scope.ancestors ≠ [] ∧ scope.bindings.slotsOf name ≠ []

/-- A scope imports a name if it has to, and a name that is not imported is free outside. -/
structure Scope.Exact (scope : Scope) (name : String) : Prop where
  imports_iff : (∃ r, scope.imports[name]? = some r) ↔ scope.Imports name
  free : scope.imports[name]? = none → ∀ v, scope.bindings.imported? name = some v → v = .free

/-- A name that is in step remains so if it stays in use and its importer keeps its value. -/
theorem Scope.Exact.of_same {scope scope' : Scope} {n : String} (h : scope.Exact n) (hclosed : scope'.closed = scope.closed)
    (hanc : scope'.ancestors = scope.ancestors) (himports : scope'.imports[n]? = scope.imports[n]?)
    (hused : scope'.bindings.slotsOf n ≠ [] ↔ scope.bindings.slotsOf n ≠ [])
    (hvalue : (∃ r, scope.imports[n]? = some r) ∨
      ∀ v, scope'.bindings.imported? n = some v → scope.bindings.imported? n = some v) :
    scope'.Exact n where
  imports_iff := by
    rw [himports, h.imports_iff, Scope.Imports, Scope.Imports, hclosed, hanc, hused]
  free hnone v hv := by
    rw [himports] at hnone
    rcases hvalue with ⟨r, hr⟩ | hvalue
    · rw [hnone] at hr
      cases hr
    · exact h.free hnone v (hvalue v hv)

/-- A scope after some operations: it stays where it is, no number is given out again, and no slot
becomes an importer. -/
structure Scope.Onward (scope scope' : Scope) : Prop where
  closed : scope'.closed = scope.closed
  ancestors : scope'.ancestors = scope.ancestors
  nextId_le : scope.bindings.nextId ≤ scope'.bindings.nextId
  place : ∀ x : SlotId, x < scope.bindings.nextId → scope'.bindings.place? x = some .importer →
    scope.bindings.place? x = some .importer

namespace Scope.Onward

variable {scope scope' scope'' : Scope}

theorem refl (scope : Scope) : scope.Onward scope := ⟨rfl, rfl, Nat.le_refl _, fun _ _ hx => hx⟩

theorem trans (h : scope.Onward scope') (h' : scope'.Onward scope'') : scope.Onward scope'' where
  closed := h'.closed.trans h.closed
  ancestors := h'.ancestors.trans h.ancestors
  nextId_le := Nat.le_trans h.nextId_le h'.nextId_le
  place x hx himp := h.place x hx (h'.place x (Nat.lt_of_lt_of_le hx h.nextId_le) himp)

/-- A change of the bindings. -/
theorem of_observed {b : Bindings} {changes : Changes} {own : Option ReaderId}
    {source : Option String} (ho : scope.bindings.Observed b changes own source)
    (hclosed : scope'.closed = scope.closed) (hanc : scope'.ancestors = scope.ancestors)
    (hb : scope'.bindings = b) : scope.Onward scope' where
  closed := hclosed
  ancestors := hanc
  nextId_le := hb ▸ ho.nextId_le
  place x hx himp := (ho.importer x (hb ▸ himp)).resolve_right (Nat.not_le.mpr hx)

end Scope.Onward

namespace ScopeTree

variable {t t' t'' : ScopeTree} {s p q c : ScopeId} {scope scope' around : Scope} {r : ReaderId}
  {name n : String} {loose loose' : ScopeId → String → Prop}

/-! ### Looking up -/

theorem get?_modify (t : ScopeTree) (s q : ScopeId) (f : Scope → Scope) :
    (t.modify s f).get? q = if s = q then (t.get? q).map f else t.get? q :=
  lookup_modify _ _ _ _

theorem get?_modify_self (f : Scope → Scope) (h : t.get? s = some scope) :
    (t.modify s f).get? s = some (f scope) := by
  rw [get?_modify, if_pos rfl, h, Option.map_some]

theorem get?_modify_of_ne (f : Scope → Scope) (h : s ≠ q) :
    (t.modify s f).get? q = t.get? q := by
  rw [get?_modify, if_neg h]

theorem exists_of_get?_modify {f : Scope → Scope} (h : (t.modify s f).get? q = some scope') :
    ∃ scope, t.get? q = some scope ∧ (scope' = f scope ∨ scope' = scope) := by
  rw [get?_modify] at h
  split at h
  · obtain ⟨scope, hscope, rfl⟩ := Option.map_eq_some_iff.mp h
    exact ⟨scope, hscope, .inl rfl⟩
  · exact ⟨scope', h, .inr rfl⟩

/-- A scope of the tree afterwards is the one that was changed, or one of those before. -/
theorem get?_modify_eq_some_iff {f : Scope → Scope} (hs : t.get? s = some scope) :
    (t.modify s f).get? q = some scope' ↔
      q = s ∧ scope' = f scope ∨ q ≠ s ∧ t.get? q = some scope' := by
  by_cases hq : q = s
  · subst hq
    rw [get?_modify_self f hs, Option.some.injEq]
    simp [eq_comm]
  · rw [get?_modify_of_ne f (Ne.symm hq)]
    simp [hq]

/-- Two trees with the same scopes, as far as their places and their walls are concerned. -/
structure SameShape (t t' : ScopeTree) : Prop where
  nextId : t'.nextId = t.nextId
  shape : ∀ q : ScopeId, (t'.get? q).map (fun scope => (scope.closed, scope.start, scope.ancestors)) =
    (t.get? q).map fun scope => (scope.closed, scope.start, scope.ancestors)

namespace SameShape

theorem refl (t : ScopeTree) : t.SameShape t := ⟨rfl, fun _ => rfl⟩

theorem trans (h : t.SameShape t') (h' : t'.SameShape t'') : t.SameShape t'' :=
  ⟨h'.nextId.trans h.nextId, fun q => (h'.shape q).trans (h.shape q)⟩

theorem symm (h : t.SameShape t') : t'.SameShape t := ⟨h.nextId.symm, fun q => (h.shape q).symm⟩

theorem of_modify {f : Scope → Scope} (hf : ∀ scope, (f scope).closed = scope.closed ∧
    (f scope).start = scope.start ∧ (f scope).ancestors = scope.ancestors) :
    t.SameShape (t.modify s f) := by
  refine ⟨rfl, fun q => ?_⟩
  rw [get?_modify]
  split
  · rw [Option.map_map]
    congr 1
    funext scope
    obtain ⟨hclosed, hstart, hanc⟩ := hf scope
    simp only [Function.comp_apply, hclosed, hstart, hanc]
  · rfl

/-- A scope of the second tree is a scope of the first one. -/
theorem exists_of_get? (h : t.SameShape t') (hq : t'.get? q = some scope') :
    ∃ scope, t.get? q = some scope ∧ scope.closed = scope'.closed ∧
      scope.start = scope'.start ∧ scope.ancestors = scope'.ancestors := by
  have hshape := h.shape q
  rw [hq] at hshape
  obtain ⟨scope, hscope, heq⟩ := Option.map_eq_some_iff.mp hshape.symm
  simp only [Prod.mk.injEq] at heq
  exact ⟨scope, hscope, heq.1, heq.2.1, heq.2.2⟩

end SameShape

/-! ### Links -/

/-- The reader `r` in the scope `p` is the one through which the scope `s` imports a name. -/
def Feeds (t : ScopeTree) (p : ScopeId) (r : ReaderId) (s : ScopeId) (name : String) : Prop :=
  ∃ scope, t.get? s = some scope ∧ scope.ancestors.head? = some p ∧
    scope.imports[name]? = some r

/-- The names in use and their imports are in step, except for those that are loose. -/
structure Tied (t : ScopeTree) (loose : ScopeId → String → Prop) : Prop where
  id_lt : ∀ {s : ScopeId} {scope : Scope}, t.get? s = some scope → s < t.nextId
  parent : ∀ {s : ScopeId} {scope : Scope} {p : ScopeId} {further : List ScopeId},
    t.get? s = some scope → scope.ancestors = p :: further →
      p < s ∧ ∃ around, t.get? p = some around ∧ around.ancestors = further
  consistent : ∀ {s : ScopeId} {scope : Scope}, t.get? s = some scope → scope.bindings.Consistent
  listened_lt : ∀ {s : ScopeId} {scope : Scope} {r : ReaderId} {ls : List Listener},
    t.get? s = some scope → scope.readerListeners[r]? = some ls → r < scope.bindings.nextId
  rooted : ∀ {s : ScopeId} {scope : Scope} {name : String}, t.get? s = some scope →
    scope.ancestors = [] → scope.imports[name]? = none
  fed : ∀ {p : ScopeId} {r : ReaderId} {s : ScopeId} {name : String}, t.Feeds p r s name →
    ∃ around scope, t.get? p = some around ∧ t.get? s = some scope ∧
      around.bindings.anchor? r = some (name, scope.start) ∧
      around.readerListeners[r]? = some [.importer s name]
  feeds : ∀ {p : ScopeId} {around : Scope} {r : ReaderId} {ls : List Listener} {s : ScopeId}
    {name : String}, t.get? p = some around → around.readerListeners[r]? = some ls →
      .importer s name ∈ ls → t.Feeds p r s name
  silent : ∀ {s : ScopeId} {scope : Scope} {id : SlotId} {ls : List Listener} {c : ScopeId}
    {name : String}, t.get? s = some scope → scope.definitionListeners[id]? = some ls →
      .importer c name ∉ ls
  exact : ∀ {s : ScopeId} {scope : Scope} {name : String}, ¬loose s name →
    t.get? s = some scope → scope.Exact name

/-- No name is loose. -/
def WellTied (t : ScopeTree) : Prop := t.Tied fun _ _ => False

/-- The places of the scopes in the tree are all that matters to some of it. -/
theorem Tied.parent_of_sameShape (h : t.Tied loose) (hshape : t.SameShape t')
    {further : List ScopeId} (hs : t'.get? s = some scope) (hanc : scope.ancestors = p :: further) :
    p < s ∧ ∃ around, t'.get? p = some around ∧ around.ancestors = further := by
  obtain ⟨old, hold, -, -, heq⟩ := hshape.exists_of_get? hs
  obtain ⟨hlt, around, haround, hfurther⟩ := h.parent hold (heq.trans hanc)
  obtain ⟨around', haround', -, -, heq'⟩ := hshape.symm.exists_of_get? haround
  exact ⟨hlt, around', haround', heq'.trans hfurther⟩

theorem Tied.id_lt_of_sameShape (h : t.Tied loose) (hshape : t.SameShape t')
    (hs : t'.get? s = some scope) : s < t'.nextId := by
  obtain ⟨old, hold, -⟩ := hshape.exists_of_get? hs
  rw [hshape.nextId]
  exact h.id_lt hold

theorem ancestors_of_get? (hs : t.get? s = some scope) : t.ancestors s = scope.ancestors := by
  rw [ancestors, hs]

/-- A scope comes after those around it. -/
theorem Tied.lt_of_mem_ancestors (h : t.Tied loose) (hs : t.get? s = some scope)
    (hq : q ∈ scope.ancestors) : q < s := by
  generalize hanc : scope.ancestors = ancestors at hq
  induction ancestors generalizing s scope with
  | nil => simp at hq
  | cons p further ih =>
    obtain ⟨hlt, around, hp, hfurther⟩ := h.parent hs hanc
    rcases List.mem_cons.mp hq with rfl | hq
    · exact hlt
    · exact Nat.lt_trans (ih hp hfurther hq) hlt

/-- Names that are in step all the same need not be loose. -/
theorem Tied.tighten (h : t.Tied loose)
    (hexact : ∀ s name scope, loose s name → t.get? s = some scope →
      loose' s name ∨ scope.Exact name) : t.Tied loose' :=
  { h with
    exact := fun {s scope name} hloose hs => by
      by_cases hl : loose s name
      · exact (hexact s name scope hl hs).resolve_left hloose
      · exact h.exact hl hs }

theorem Tied.feeds_of_imports (h : t.Tied loose) (hs : t.get? s = some scope)
    (hr : scope.imports[name]? = some r) :
    ∃ p further, scope.ancestors = p :: further ∧ t.Feeds p r s name := by
  cases hanc : scope.ancestors with
  | nil =>
    rw [h.rooted hs hanc] at hr
    cases hr
  | cons p further => exact ⟨p, further, rfl, scope, hs, by rw [hanc, List.head?_cons], hr⟩

theorem Tied.lt_of_feeds (h : t.Tied loose) (hf : t.Feeds p r s name) : p < s := by
  obtain ⟨scope, hs, hp, -⟩ := hf
  cases hanc : scope.ancestors with
  | nil =>
    rw [hanc] at hp
    cases hp
  | cons x further =>
    rw [hanc] at hp
    cases hp
    exact (h.parent hs hanc).1

/-- A reader feeds one importer. -/
theorem Tied.feeds_inj (h : t.Tied loose) (hf : t.Feeds p r s name) (hf' : t.Feeds p r c n) :
    s = c ∧ name = n := by
  obtain ⟨around, -, haround, -, -, hlisten⟩ := h.fed hf
  obtain ⟨around', -, haround', -, -, hlisten'⟩ := h.fed hf'
  rw [haround] at haround'
  cases haround'
  rw [hlisten] at hlisten'
  simpa using hlisten'

/-- An importer is fed by one reader. -/
theorem feeds_unique (hf : t.Feeds p r s name) {x : ReaderId} (hf' : t.Feeds q x s name) :
    p = q ∧ r = x := by
  obtain ⟨scope, hs, hp, hr⟩ := hf
  obtain ⟨scope', hs', hp', hr'⟩ := hf'
  rw [hs] at hs'
  cases hs'
  exact ⟨by simpa [hp] using hp', by simpa [hr] using hr'⟩

theorem Tied.reader_lt (h : t.Tied loose) (hs : t.get? s = some scope)
    {a : String × Position} (hr : scope.bindings.anchor? r = some a) :
    r < scope.bindings.nextId := by
  obtain ⟨reader, hreader, -⟩ := Option.map_eq_some_iff.mp hr
  exact (h.consistent hs).reader_lt hreader

/-- A number that was not given out yet feeds no importer. -/
theorem Tied.not_feeds_of_le (h : t.Tied loose) (hp : t.get? p = some around)
    (hr : around.bindings.nextId ≤ r) : ¬t.Feeds p r s name := by
  intro hf
  obtain ⟨around', scope, haround, -, hanchor, -⟩ := h.fed hf
  rw [hp] at haround
  cases haround
  exact absurd (h.reader_lt hp hanchor) (Nat.not_lt.mpr hr)

/-! ### Values across links -/

/-- What a name means outside a scope, as its importer has it. -/
def imported? (t : ScopeTree) (s : ScopeId) (name : String) : Option SlotValue :=
  (t.get? s).bind (·.bindings.imported? name)

/-- What a reader observes, if it is there. -/
def readerValue? (t : ScopeTree) (s : ScopeId) (r : ReaderId) : Option SlotValue :=
  (t.get? s).bind (·.bindings.readerValue? r)

/-- An importer has the value that its reader observes. -/
def Settled (t : ScopeTree) (p : ScopeId) (r : ReaderId) (s : ScopeId) (name : String) : Prop :=
  ∀ v w, t.imported? s name = some v → t.readerValue? p r = some w → v.same w

/-- The reader feeds an importer that has another value. -/
def Unsettled (t : ScopeTree) (p : ScopeId) (r : ReaderId) : Prop :=
  ∃ s name, t.Feeds p r s name ∧ ¬t.Settled p r s name

/-! ### What operations keep -/

/-- A number that was given out, to a slot or a reader in a scope. -/
def Given (t : ScopeTree) (s : ScopeId) (x : Nat) : Prop :=
  s < t.nextId ∧ ∀ scope, t.get? s = some scope → x < scope.bindings.nextId

theorem Tied.given_of_feeds (h : t.Tied loose) (hf : t.Feeds p r s name) : t.Given p r := by
  obtain ⟨around, _, haround, -, hanchor, -⟩ := h.fed hf
  refine ⟨h.id_lt haround, fun around' haround' => ?_⟩
  rw [haround] at haround'
  cases haround'
  exact h.reader_lt haround hanchor

/-- The second tree is the first one after some operations. -/
structure Extends (t t' : ScopeTree) : Prop where
  nextId_le : t.nextId ≤ t'.nextId
  scope : ∀ {s : ScopeId} {scope' : Scope}, t'.get? s = some scope' → s < t.nextId →
    ∃ scope, t.get? s = some scope ∧ scope.Onward scope'
  feeds : ∀ {p : ScopeId} {r : ReaderId} {s : ScopeId} {name : String}, t.Given p r →
    t'.Feeds p r s name → t.Feeds p r s name

theorem Extends.refl (t : ScopeTree) : t.Extends t where
  nextId_le := Nat.le_refl _
  scope {_ scope'} hs _ := ⟨scope', hs, .refl scope'⟩
  feeds _ h := h

theorem Given.extend {x : Nat} (h : t.Given s x) (ht : t.Extends t') : t'.Given s x := by
  refine ⟨Nat.lt_of_lt_of_le h.1 ht.nextId_le, fun scope' hs' => ?_⟩
  obtain ⟨scope, hscope, honward⟩ := ht.scope hs' h.1
  exact Nat.lt_of_lt_of_le (h.2 scope hscope) honward.nextId_le

theorem Extends.trans (h : t.Extends t') (h' : t'.Extends t'') : t.Extends t'' where
  nextId_le := Nat.le_trans h.nextId_le h'.nextId_le
  scope {s scope''} hs hlt := by
    obtain ⟨scope', hs', honward'⟩ := h'.scope hs (Nat.lt_of_lt_of_le hlt h.nextId_le)
    obtain ⟨scope, hscope, honward⟩ := h.scope hs' hlt
    exact ⟨scope, hscope, honward.trans honward'⟩
  feeds hr hf := h.feeds hr (h'.feeds (hr.extend h) hf)

/-- The number of a reader that was made for others than an importer. -/
structure Lent (t : ScopeTree) (s : ScopeId) (r : ReaderId) : Prop where
  given : t.Given s r
  not_feeds : ∀ c name, ¬t.Feeds s r c name

/-- The number of a slot that is no importer. -/
structure LentSlot (t : ScopeTree) (s : ScopeId) (id : SlotId) : Prop where
  given : t.Given s id
  not_importer : ∀ scope, t.get? s = some scope → scope.bindings.place? id ≠ some .importer

theorem Lent.extend (h : t.Lent s r) (ht : t.Extends t') : t'.Lent s r where
  given := h.given.extend ht
  not_feeds c name hf := h.not_feeds c name (ht.feeds h.given hf)

theorem LentSlot.extend {id : SlotId} (h : t.LentSlot s id) (ht : t.Extends t') :
    t'.LentSlot s id where
  given := h.given.extend ht
  not_importer scope' hs' himp := by
    obtain ⟨scope, hscope, honward⟩ := ht.scope hs' h.given.1
    exact h.not_importer scope hscope (honward.place id (h.given.2 scope hscope) himp)

/-- An operation goes from one tree to the next: no number is given out again, and the readers in
`s` that are told are all that observe another value than before, and all that have an unsettled
link that was not unsettled before. -/
structure Passes (t t' : ScopeTree) (s : ScopeId) (readers : List ReaderId) : Prop
    extends Extends t t' where
  told : ∀ {p : ScopeId} {r : ReaderId} {now : SlotValue}, t.Given p r →
    t'.readerValue? p r = some now →
      ∃ before, t.readerValue? p r = some before ∧ (now.same before ∨ p = s ∧ r ∈ readers)
  unsettled : ∀ {p : ScopeId} {r : ReaderId}, t'.Unsettled p r →
    t.Unsettled p r ∨ p = s ∧ r ∈ readers

theorem Passes.refl (t : ScopeTree) (s : ScopeId) : t.Passes t s [] :=
  { Extends.refl t with
    told := fun _ hnow => ⟨_, hnow, .inl (SlotValue.same_refl _)⟩
    unsettled := .inl }

/-- If nobody is told, it does not matter where. -/
theorem Passes.of_nil (h : t.Passes t' s []) (u : ScopeId) : t.Passes t' u [] :=
  { h.toExtends with
    told := fun hr hnow => by
      obtain ⟨before, hbefore, hsame⟩ := h.told hr hnow
      exact ⟨before, hbefore, .inl (hsame.resolve_right (by simp))⟩
    unsettled := fun hu => .inl ((h.unsettled hu).resolve_right (by simp)) }

theorem Passes.trans {readers more : List ReaderId} (h : t.Passes t' s readers)
    (h' : t'.Passes t'' s more) : t.Passes t'' s (readers ++ more) :=
  { h.toExtends.trans h'.toExtends with
    told := fun {p r now} hr hnow => by
      obtain ⟨middle, hmiddle, hlate⟩ := h'.told (hr.extend h.toExtends) hnow
      obtain ⟨before, hbefore, hearly⟩ := h.told hr hmiddle
      refine ⟨before, hbefore, ?_⟩
      rcases hlate with hlate | ⟨rfl, hmem⟩
      · rcases hearly with hearly | ⟨rfl, hmem⟩
        · exact .inl (SlotValue.same_trans hlate hearly)
        · exact .inr ⟨rfl, List.mem_append_left _ hmem⟩
      · exact .inr ⟨rfl, List.mem_append_right _ hmem⟩
    unsettled := fun {p r} hu => by
      rcases h'.unsettled hu with hu | ⟨rfl, hr⟩
      · rcases h.unsettled hu with hu | ⟨rfl, hr⟩
        · exact .inl hu
        · exact .inr ⟨rfl, List.mem_append_left _ hr⟩
      · exact .inr ⟨rfl, List.mem_append_right _ hr⟩ }

/-- An operation that takes away: nobody is told, and no scope and no link is new. -/
structure Recedes (t t' : ScopeTree) : Prop where
  nextId : t'.nextId = t.nextId
  passes : ∀ u : ScopeId, t.Passes t' u []
  links : ∀ {p : ScopeId} {r : ReaderId} {s : ScopeId} {name : String}, t'.Feeds p r s name →
    t.Feeds p r s name

theorem Recedes.refl (t : ScopeTree) : t.Recedes t := ⟨rfl, Passes.refl t, id⟩

theorem Recedes.trans (h : t.Recedes t') (h' : t'.Recedes t'') : t.Recedes t'' where
  nextId := h'.nextId.trans h.nextId
  passes u := (h.passes u).trans (h'.passes u)
  links hf := h.links (h'.links hf)

/-- A scope that is left was there, in the same place. -/
theorem Recedes.exists_of_get? (h : t.Recedes t') (ht' : t'.Tied loose)
    (hs : t'.get? s = some scope') : ∃ scope, t.get? s = some scope ∧ scope.Onward scope' :=
  (h.passes s).scope hs (h.nextId ▸ ht'.id_lt hs)

end ScopeTree

end MathCanvas
