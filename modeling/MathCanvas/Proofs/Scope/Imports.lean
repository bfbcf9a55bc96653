import MathCanvas.Proofs.Scope.Connect

/-!
# Imports come and go

`ScopeTree.link` goes up the chain of ancestors as long as the new reader brings its name into use
in the parent, and `ScopeTree.unlink` as long as the reader that goes puts it out of use. Both are
followed from the innermost scope outwards, with the names that they have still to put in step kept
loose: `linked_link` and `unlinked_unlink` are inductions on the ancestors. `tied_follow` says that
a change of bindings, followed by its imports, leaves no name loose.
-/

namespace MathCanvas

namespace Bindings

variable {b : Bindings} {r : ReaderId} {name : String}

/-- Only readers of the name are told of its importer. -/
theorem anchor?_of_mem_setImported (hb : b.Consistent) {v : SlotValue}
    (h : r ∈ (b.setImported name v).1.readers) : ∃ p, b.anchor? r = some (name, p) := by
  unfold setImported at h
  cases himp : b.importer? name with
  | none =>
    rw [himp] at h
    simp at h
  | some x =>
    rw [himp] at h
    simp only at h
    obtain ⟨slot, hslot, hname⟩ := hb.stored_of_mem (mem_slotsOf_of_importer? himp)
    rw [setValue, hslot] at h
    simp only at h
    split at h
    · simp at h
    · obtain ⟨reader, hreader, hx⟩ := hb.observes hslot (mem_sortBy.mp h)
      obtain ⟨slot', hslot', hname', -⟩ := hb.held hreader
      rw [hx, hslot] at hslot'
      cases hslot'
      refine ⟨reader.position, ?_⟩
      rw [anchor?, hreader, Option.map_some, Reader.anchor, ← hname', hname]

theorem setValue_changes (b : Bindings) (x : SlotId) (v : SlotValue) :
    (b.setValue x v).1.opened = [] ∧ (b.setValue x v).1.closed = [] := by
  unfold setValue
  split
  · split
    · exact ⟨rfl, rfl⟩
    · exact ⟨rfl, rfl⟩
  · exact ⟨rfl, rfl⟩

theorem setImported_changes (b : Bindings) (name : String) (v : SlotValue) :
    (b.setImported name v).1.opened = [] ∧ (b.setImported name v).1.closed = [] := by
  unfold setImported
  split
  · exact setValue_changes b _ v
  · exact ⟨rfl, rfl⟩

/-- A reader that is added has a new number. -/
theorem nextId_le_addReader (hb : b.Consistent) (name : String) (p : Position) :
    b.nextId ≤ (b.addReader name p).1 := by
  obtain ⟨c, opened, hopen, hid, -⟩ := addReader_spec hb name p
  rw [hid, hopen.nextId]
  split
  · exact Nat.le_succ _
  · exact Nat.le_refl _

/-- Adding a reader brings its name into use, or no name. -/
theorem opened_addReader (hb : b.Consistent) (name : String) (p : Position) :
    ((b.addReader name p).2.1.opened = [] ∨ (b.addReader name p).2.1.opened = [name]) ∧
      (b.addReader name p).2.1.closed = [] := by
  obtain ⟨c, opened, hopen, -, -, -, hchanges, -⟩ := addReader_spec hb name p
  rw [hchanges]
  refine ⟨?_, rfl⟩
  have hcases := hopen.opened
  split at hcases
  · exact .inr hcases
  · exact .inl hcases

theorem closeName_closed (b : Bindings) (name : String) :
    (b.closeName name).2 = [] ∨ (b.closeName name).2 = [name] := by
  unfold closeName
  split
  · split
    · exact .inl rfl
    · exact .inr rfl
  · exact .inl rfl

/-- Removing a reader puts its name out of use, or no name. -/
theorem changes_removeReader (b : Bindings) {p : Position} (h : b.anchor? r = some (name, p)) :
    ((b.removeReader r).1.closed = [] ∨ (b.removeReader r).1.closed = [name]) ∧
      (b.removeReader r).1.opened = [] ∧ (b.removeReader r).1.readers = [] := by
  obtain ⟨reader, hreader, heq⟩ := Option.map_eq_some_iff.mp h
  simp only [Reader.anchor, Prod.mk.injEq] at heq
  rw [removeReader, hreader]
  simp only [heq.1]
  exact ⟨closeName_closed _ name, trivial, trivial⟩

end Bindings

namespace ScopeTree

variable {t t' t'' : ScopeTree} {s p q c : ScopeId} {scope scope' around : Scope} {r : ReaderId}
  {name n : String} {loose : ScopeId → String → Prop}

/-! ### A name is linked -/

theorem link_of_not_imported (hs : t.get? s = some scope)
    (h : scope.closed = true ∨ scope.ancestors = []) : t.link s name scope.ancestors = ([], t) := by
  cases hanc : scope.ancestors with
  | nil => rw [link]
  | cons p further =>
    have hclosed : scope.closed = true := h.resolve_right (by simp [hanc])
    rw [link, hs]
    cases t.get? p with
    | none => rfl
    | some around => simp only [hclosed, if_true]

/-- What linking a name in an open scope with a parent does: a reader is added to the parent, the
parent imports the name if it has to, and the name is connected. -/
theorem link_of_imported (hs : t.get? s = some scope) (hp : t.get? p = some around)
    (hwall : scope.closed = false) (further : List ScopeId) {r : ReaderId} {changes : Changes}
    {b : Bindings} (hadd : around.bindings.addReader name scope.start = (r, changes, b))
    {u : ScopeTree} (hu : u = if changes.opened.isEmpty then t.setBindings p b
      else ((t.setBindings p b).link p name further).2) :
    t.link s name (p :: further) =
      let (changes, bindings) := scope.bindings.setImported name
        ((u.listenToReader p r (.importer s name)).readerValue p r)
      (changes.readers, u.connected s name p r bindings) := by
  subst hu
  rw [link, hs, hp]
  simp only [hwall, Bool.false_eq_true, if_false, hadd]
  rfl

/-- What linking a name does. -/
structure Linked (t t' : ScopeTree) (s : ScopeId) (name : String) (readers : List ReaderId)
    (loose : ScopeId → String → Prop) : Prop where
  tied : t'.Tied fun q n => loose q n ∧ ¬(q = s ∧ n = name)
  passes : t.Passes t' s readers
  shape : t.SameShape t'
  frame : ∀ q, q ∉ s :: t.ancestors s → t'.get? q = t.get? q
  self : ∀ scope, t.get? s = some scope → ∃ scope', t'.get? s = some scope' ∧
    (∀ r, scope'.bindings.anchor? r = scope.bindings.anchor? r) ∧
    scope'.readerListeners = scope.readerListeners ∧
    ∀ r ∈ readers, ∃ p, scope.bindings.anchor? r = some (name, p)

/-- A scope that does not import the name is left as it is. -/
theorem linked_refl (h : t.Tied loose) (hs : t.get? s = some scope)
    (hwall : scope.closed = true ∨ scope.ancestors = [])
    (hnone : scope.imports[name]? = none) (hfree : scope.bindings.imported? name = some .free) :
    Linked t t s name [] loose where
  tied := h.tighten fun q n scope' hl hq => by
    by_cases heq : q = s ∧ n = name
    · obtain ⟨rfl, rfl⟩ := heq
      rw [hs] at hq
      cases hq
      refine .inr ⟨⟨?_, ?_⟩, fun _ v hv => ?_⟩
      · rintro ⟨r, hr⟩
        rw [hnone] at hr
        cases hr
      · rintro ⟨hclosed, hanc, -⟩
        rcases hwall with hwall | hwall
        · rw [hwall] at hclosed
          cases hclosed
        · exact absurd hwall hanc
      · rw [hfree] at hv
        exact (Option.some.inj hv).symm
    · exact .inl ⟨hl, heq⟩
  passes := Passes.refl t s
  shape := SameShape.refl t
  frame _ _ := rfl
  self scope' hs' := ⟨scope', hs', fun _ => rfl, rfl, by simp⟩

/-- The parent has a new reader, and imports the name if it has to. -/
structure Hosted (t u : ScopeTree) (s : ScopeId) (scope : Scope) (name : String) (p : ScopeId)
    (r : ReaderId) (loose : ScopeId → String → Prop) : Prop where
  tied : u.Tied loose
  passes : t.Passes u s []
  shape : t.SameShape u
  frame : ∀ q, q ∉ p :: t.ancestors p → u.get? q = t.get? q
  outer : ∃ around, u.get? p = some around ∧
    around.bindings.anchor? r = some (name, scope.start) ∧ around.readerListeners[r]? = none
  fresh : ∃ around, t.get? p = some around ∧ around.bindings.nextId ≤ r

/-- Once the parent has a reader, the name is connected to it. -/
theorem Hosted.linked {u : ScopeTree} (h : t.Hosted u s scope name p r loose)
    (hs : t.get? s = some scope) (hparent : scope.ancestors.head? = some p)
    (hlt : s ∉ p :: t.ancestors p) (hsub : ∀ q, q ∉ scope.ancestors → q ∉ p :: t.ancestors p)
    (hwall : scope.closed = false) (hnone : scope.imports[name]? = none)
    (hfree : scope.bindings.imported? name = some .free) {v : SlotValue}
    (hv : v = (u.listenToReader p r (.importer s name)).readerValue p r) :
    Linked t (u.connected s name p r (scope.bindings.setImported name v).2) s name
      (scope.bindings.setImported name v).1.readers loose := by
  obtain ⟨around, hp, hanchor, hunheard⟩ := h.outer
  obtain ⟨old, hold, hfresh⟩ := h.fresh
  have hsu : u.get? s = some scope := by rw [h.frame s hlt, hs]
  have hc : u.Connects s scope name p around r := ⟨hsu, hparent, hnone, hp, hanchor, hunheard⟩
  have hconsistent := h.tied.consistent hsu
  have ho := Bindings.observed_setImported hconsistent name v
  obtain ⟨hopened, hclosed⟩ := Bindings.setImported_changes scope.bindings name v
  have hvalue : ∀ v' w, (scope.bindings.setImported name v).2.imported? name = some v' →
      around.bindings.readerValue? r = some w → v'.same w := by
    intro v' w hv' hw
    have hsame := Bindings.imported?_setImported hconsistent name v hv'
    have hlisten : (u.listenToReader p r (.importer s name)).readerValue p r = w := by
      rw [readerValue, listenToReader, get?_modify_self _ hp, Option.bind_some, hw, Option.getD_some]
    rwa [hv, hlisten] at hsame
  have hextends := extends_connected h.tied hc ho h.passes.toExtends hold hfresh
  refine ⟨h.tied.connected hc ho hwall (slotsOf_ne_nil_of_imported? hfree) hopened hclosed,
    ⟨hextends, fun {q x now} hx hnow => ?_, fun {q x} hu => ?_⟩,
    h.shape.trans (sameShape_connected u s name p r _), ?_, ?_⟩
  · obtain ⟨middle, hmiddle, hlate⟩ :=
      told_connected h.tied hc ho (hx.extend h.passes.toExtends) hnow
    obtain ⟨before, hbefore, hearly⟩ := h.passes.told hx hmiddle
    exact ⟨before, hbefore, hlate.imp_left fun hsame =>
      SlotValue.same_trans hsame (hearly.resolve_right (by simp))⟩
  · rcases unsettled_connected h.tied hc ho hopened hvalue hu with hu | htold
    · rcases h.passes.unsettled hu with hu | ⟨-, hx⟩
      · exact .inl hu
      · simp at hx
    · exact .inr htold
  · intro q hq
    rw [ancestors_of_get? hs, List.mem_cons, not_or] at hq
    have hqp : q ∉ p :: t.ancestors p := hsub q hq.2
    have hne : q ≠ p := fun heq => hqp (heq ▸ List.mem_cons_self)
    rw [connected, get?_modify_of_ne _ (Ne.symm hq.1), listenToReader,
      get?_modify_of_ne _ (Ne.symm hne), h.frame q hqp]
  · intro scope' hs'
    rw [hs] at hs'
    cases hs'
    refine ⟨_, (hc.get?_eq_some_iff h.tied).mpr (.inl ⟨rfl, rfl⟩), fun x => ho.anchor x (by simp),
      rfl, fun x hx => Bindings.anchor?_of_mem_setImported hconsistent hx⟩

/-- A name that comes into use was not imported. -/
theorem Tied.imports_of_opened (h : t.Tied loose) (hloose : ∀ n, ¬loose s n)
    (hs : t.get? s = some scope) {b : Bindings} {changes : Changes} {own : Option ReaderId}
    {source : Option String} (ho : scope.bindings.Observed b changes own source) :
    ∀ n ∈ changes.opened, scope.imports[n]? = none := by
  intro n hn
  cases himp : scope.imports[n]? with
  | none => rfl
  | some x =>
    have hused := ((h.exact (hloose n) hs).imports_iff.mp ⟨x, himp⟩).2.2
    exact absurd (ho.unused n hn) hused

/-- A reader that is added feeds no importer. -/
theorem Tied.not_feeds_addReader (h : t.Tied loose) (hp : t.get? p = some around)
    {place : Position} {changes : Changes} {b : Bindings}
    (hadd : around.bindings.addReader name place = (r, changes, b)) :
    ∀ x, some r = some x → ∀ c n, ¬t.Feeds p x c n := by
  rintro x hx c n
  cases hx
  have hfresh := Bindings.nextId_le_addReader (h.consistent hp) name place
  rw [hadd] at hfresh
  exact h.not_feeds_of_le hp hfresh

/-- A new reader in the parent brings the name into use there, or finds it in use. In the first
case the parent links the name, of which the new reader is the only one. -/
theorem hosted_addReader (h : t.Tied loose) (hloose : ∀ n, ¬loose p n) (hp : t.get? p = some around) {changes : Changes} {b : Bindings}
    (hadd : around.bindings.addReader name scope.start = (r, changes, b)) {u : ScopeTree}
    (hu : (changes.opened = [] ∧ u = t.setBindings p b) ∨
      (changes.opened = [name] ∧ ∃ readers, Linked (t.setBindings p b) u p name readers
        fun q n => loose q n ∨ q = p ∧ (n ∈ changes.opened ∨ n ∈ changes.closed))) :
    t.Hosted u s scope name p r loose := by
  have hconsistent := h.consistent hp
  have ho := Bindings.observed_addReader hconsistent name scope.start
  obtain ⟨c, opened, -, -, hanchored, -, hchanges, -⟩ :=
    Bindings.addReader_spec hconsistent name scope.start
  rw [hadd] at ho hanchored hchanges
  simp only at ho hanchored hchanges
  have hfresh := Bindings.nextId_le_addReader hconsistent name scope.start
  rw [hadd] at hfresh
  have hanchor : b.anchor? r = some (name, scope.start) := by rw [hanchored.anchor, if_pos rfl]
  have hunheard : around.readerListeners[r]? = none := by
    cases hls : around.readerListeners[r]? with
    | none => rfl
    | some ls => exact absurd (h.listened_lt hp hls) (Nat.not_lt.mpr hfresh)
  have hown := h.not_feeds_addReader hp hadd
  have htied := h.setBindings hp ho hown (by simp)
  have hpasses := passes_setBindings h hp ho (h.imports_of_opened hloose hp ho)
  rw [show changes.readers = [] by rw [hchanges]] at hpasses
  have hshape : t.SameShape (t.setBindings p b) := .of_modify fun _ => ⟨rfl, rfl, rfl⟩
  have hclosed : changes.closed = [] := by rw [hchanges]
  have hself : (t.setBindings p b).get? p = some { around with bindings := b } :=
    get?_modify_self _ hp
  rcases hu with ⟨hopened, rfl⟩ | ⟨hopened, readers, hlinked⟩
  · refine ⟨htied.tighten fun q n _ hl _ => .inl ?_, hpasses.of_nil s, hshape, fun q hq => ?_,
      ⟨_, hself, hanchor, hunheard⟩, ⟨around, hp, hfresh⟩⟩
    · simpa [hopened, hclosed] using hl
    · rw [List.mem_cons, not_or] at hq
      exact get?_modify_of_ne _ (Ne.symm hq.1)
  · obtain ⟨new, hnew, hanchors, hlisten, hnamed⟩ := hlinked.self _ hself
    -- the new reader is the only one of its name
    have honly : ∀ x ∈ readers, x = r := by
      intro x hx
      obtain ⟨place, hplace⟩ := hnamed x hx
      by_contra hne
      rw [ho.anchor x (fun heq => hne (Option.some.inj heq).symm)] at hplace
      exact hconsistent.ne_nil_of_anchor? hplace (ho.unused name (by simp [hopened]))
    refine ⟨hlinked.tied.tighten fun q n _ hl _ => .inl ?_,
      ⟨?_, fun {q x now} hx hnow => ?_, fun {q x} hu => .inl ?_⟩,
      hshape.trans hlinked.shape, fun q hq => ?_,
      ⟨new, hnew, by rw [hanchors, hanchor], by rw [hlisten, hunheard]⟩, ⟨around, hp, hfresh⟩⟩
    · simp only [hopened, hclosed, List.mem_singleton, List.not_mem_nil, or_false] at hl
      exact hl.1.resolve_right hl.2
    · exact hpasses.toExtends.trans hlinked.passes.toExtends
    · obtain ⟨middle, hmiddle, hlate⟩ := hlinked.passes.told (hx.extend hpasses.toExtends) hnow
      obtain ⟨before, hbefore, hearly⟩ := hpasses.told hx hmiddle
      refine ⟨before, hbefore, .inl (SlotValue.same_trans (hlate.resolve_right ?_)
        (hearly.resolve_right (by simp)))⟩
      rintro ⟨rfl, hmem⟩
      rw [honly x hmem] at hx
      exact Nat.not_lt.mpr hfresh (hx.2 around hp)
    · rcases hlinked.passes.unsettled hu with hu | ⟨rfl, hx⟩
      · exact (hpasses.unsettled hu).resolve_right (by simp)
      · -- it does not feed an importer yet
        obtain ⟨c', n, hf, -⟩ := hu
        rw [honly x hx] at hf
        have hgiven : (t.setBindings q b).Given q r := by
          refine ⟨h.id_lt_of_sameShape hshape hself, fun new' hnew' => ?_⟩
          rw [hself] at hnew'
          cases hnew'
          exact htied.reader_lt hself hanchor
        exact absurd (feeds_setBindings_iff.mp (hlinked.passes.feeds hgiven hf)) (hown r rfl c' n)
    · have hanc : (t.setBindings p b).ancestors p = t.ancestors p := by
        rw [ancestors_of_get? hself, ancestors_of_get? hp]
      rw [hlinked.frame q (by rw [hanc]; exact hq)]
      rw [List.mem_cons, not_or] at hq
      exact get?_modify_of_ne _ (Ne.symm hq.1)

/-- A new reader in the parent that brings its name into use leaves the parent with the task to link
the name. -/
theorem Tied.opens (h : t.Tied loose) (hloose : ∀ q n, loose q n → s ≤ q) (hlt : p < s)
    (hp : t.get? p = some around) {changes : Changes} {b : Bindings}
    (hadd : around.bindings.addReader name scope.start = (r, changes, b))
    (hopened : changes.opened = [name]) :
    (t.setBindings p b).Tied
        (fun q n => loose q n ∨ q = p ∧ (n ∈ changes.opened ∨ n ∈ changes.closed)) ∧
      (∀ q n, loose q n ∨ q = p ∧ (n ∈ changes.opened ∨ n ∈ changes.closed) → p ≤ q) ∧
      around.imports[name]? = none ∧ b.imported? name = some .free := by
  have ho := Bindings.observed_addReader (h.consistent hp) name scope.start
  obtain ⟨-, hclosed⟩ := Bindings.opened_addReader (h.consistent hp) name scope.start
  rw [hadd] at ho hclosed
  simp only at ho hclosed
  have hnot : ∀ n, ¬loose p n := fun n hl => Nat.not_le.mpr hlt (hloose p n hl)
  have hused : b.slotsOf name ≠ [] := by
    rw [ho.used, hopened]
    simp [hclosed]
  refine ⟨h.setBindings hp ho (h.not_feeds_addReader hp hadd) (by simp), ?_,
    h.imports_of_opened hnot hp ho name (by simp [hopened]), ?_⟩
  · rintro q n (hl | ⟨rfl, -⟩)
    · exact Nat.le_trans (Nat.le_of_lt hlt) (hloose q n hl)
    · exact Nat.le_refl _
  · have himp := ho.imported name (by simp) hused
    rwa [if_pos (by simp [hopened])] at himp

/-- The parent links the name if the new reader brings it into use there. -/
theorem hosted_link (h : t.Tied loose) (hloose : ∀ n, ¬loose p n) (hp : t.get? p = some around)
    {changes : Changes} {b : Bindings}
    (hadd : around.bindings.addReader name scope.start = (r, changes, b)) {further : List ScopeId}
    (hlinked : changes.opened = [name] → ∃ readers,
      Linked (t.setBindings p b) ((t.setBindings p b).link p name further).2 p name readers
        fun q n => loose q n ∨ q = p ∧ (n ∈ changes.opened ∨ n ∈ changes.closed))
    {u : ScopeTree} (hu : u = if changes.opened.isEmpty then t.setBindings p b
      else ((t.setBindings p b).link p name further).2) : t.Hosted u s scope name p r loose := by
  obtain ⟨hcases, -⟩ := Bindings.opened_addReader (h.consistent hp) name scope.start
  rw [hadd] at hcases
  simp only at hcases
  rcases hcases with hopened | hopened
  · have heq : u = t.setBindings p b := by rw [hu, hopened]; rfl
    exact hosted_addReader h hloose hp hadd (.inl ⟨hopened, heq⟩)
  · have heq : u = ((t.setBindings p b).link p name further).2 := by rw [hu, hopened]; rfl
    obtain ⟨readers, hlinked⟩ := hlinked hopened
    exact hosted_addReader h hloose hp hadd (.inr ⟨hopened, readers, heq ▸ hlinked⟩)

/-- A name that came into use is put in step. The induction is on the ancestors: the parent has the
same task if the new reader brings the name into use there. -/
theorem linked_link (name : String) : ∀ (further : List ScopeId) {t : ScopeTree} {s : ScopeId}
    {scope : Scope} {loose : ScopeId → String → Prop}, t.Tied loose →
      (∀ q n, loose q n → s ≤ q) → t.get? s = some scope → scope.ancestors = further →
      scope.imports[name]? = none → scope.bindings.imported? name = some .free →
      Linked t (t.link s name further).2 s name (t.link s name further).1 loose := by
  intro further
  induction further with
  | nil =>
    intro t s scope loose h _ hs hanc hnone hfree
    rw [← hanc, link_of_not_imported hs (.inr hanc)]
    exact linked_refl h hs (.inr hanc) hnone hfree
  | cons p further ih =>
    intro t s scope loose h hloose hs hanc hnone hfree
    by_cases hwall : scope.closed = true
    · rw [← hanc, link_of_not_imported hs (.inl hwall)]
      exact linked_refl h hs (.inl hwall) hnone hfree
    have hwall : scope.closed = false := by simpa using hwall
    obtain ⟨hlt, around, hp, hfurther⟩ := h.parent hs hanc
    have hnot : ∀ n, ¬loose p n := fun n hl => Nat.not_le.mpr hlt (hloose p n hl)
    have hancp : t.ancestors p = further := by rw [ancestors_of_get? hp, hfurther]
    rcases hadd : around.bindings.addReader name scope.start with ⟨r, changes, b⟩
    have hself : (t.setBindings p b).get? p = some { around with bindings := b } :=
      get?_modify_self _ hp
    set u := if changes.opened.isEmpty then t.setBindings p b
      else ((t.setBindings p b).link p name further).2 with hu
    have hhosted : t.Hosted u s scope name p r loose := by
      refine hosted_link h hnot hp hadd (fun hopened => ?_) hu
      obtain ⟨htied, hloose', hmissing, hfree⟩ := h.opens hloose hlt hp hadd hopened
      exact ⟨_, ih htied hloose' hself hfurther hmissing hfree⟩
    rw [link_of_imported hs hp hwall further hadd hu]
    refine hhosted.linked hs (by rw [hanc, List.head?_cons]) ?_ ?_ hwall hnone hfree rfl
    · rw [hancp]
      intro hmem
      exact Nat.lt_irrefl s (h.lt_of_mem_ancestors hs (hanc ▸ hmem))
    · intro q hq
      rwa [hancp, ← hanc]

/-! ### A name is unlinked -/

/-- What unlinking some names does. -/
structure Unlinked (t t' : ScopeTree) (s : ScopeId) (names : List String)
    (loose : ScopeId → String → Prop) : Prop where
  tied : t'.Tied fun q n => loose q n ∨ q = s ∧ n ∈ names
  recedes : t.Recedes t'
  shape : t.SameShape t'
  frame : ∀ q, q ∉ s :: t.ancestors s → t'.get? q = t.get? q
  self : ∀ scope, t.get? s = some scope → ∃ scope', t'.get? s = some scope' ∧
    scope'.bindings = scope.bindings ∧
    ∀ n : String, scope'.imports[n]? = if n ∈ names then none else scope.imports[n]?

theorem unlinked_refl (h : t.Tied loose) (hs : t.get? s = some scope)
    (hnone : scope.imports[name]? = none) : Unlinked t t s [name] loose where
  tied := h.tighten fun _ _ _ hl _ => .inl (.inl hl)
  recedes := Recedes.refl t
  shape := SameShape.refl t
  frame _ _ := rfl
  self scope' hs' := by
    rw [hs] at hs'
    cases hs'
    refine ⟨scope, hs, rfl, fun n => ?_⟩
    split
    · rename_i hn
      rw [List.mem_singleton.mp hn, hnone]
    · rfl

theorem unlink_of_none (hs : t.get? s = some scope) (hnone : scope.imports[name]? = none)
    (p : ScopeId) (further : List ScopeId) : t.unlink s name (p :: further) = t := by
  rw [unlink, hs, Option.bind_some, hnone]

/-- What unlinking an imported name does: the name is disconnected, and the parent gives up its
own import if it has to. -/
theorem unlink_of_imported (hs : t.get? s = some scope) (hr : scope.imports[name]? = some r)
    (hp : t.get? p = some around) (hne : s ≠ p) (further : List ScopeId) {u : ScopeTree}
    (hu : u = t.disconnected s name p r (around.bindings.removeReader r).2) :
    t.unlink s name (p :: further) =
      if (around.bindings.removeReader r).1.closed.isEmpty then u else u.unlink p name further := by
  subst hu
  rw [unlink, hs, Option.bind_some, hr]
  simp only
  rw [get?_modify_of_ne _ hne, hp]
  rfl

/-- A name that is not in use and not imported is in step. -/
theorem exact_of_unused (hused : scope.bindings.slotsOf name = [])
    (hnone : scope.imports[name]? = none) : scope.Exact name where
  imports_iff := by
    constructor
    · rintro ⟨r, hr⟩
      rw [hnone] at hr
      cases hr
    · rintro ⟨-, -, h⟩
      exact absurd hused h
  free _ v hv := absurd hused (slotsOf_ne_nil_of_imported? hv)

/-- The import of a name ends. The induction is on the ancestors: the parent has the same task if
the reader that goes puts the name out of use there. -/
theorem unlinked_unlink (name : String) : ∀ (further : List ScopeId) {t : ScopeTree} {s : ScopeId}
    {scope : Scope} {loose : ScopeId → String → Prop}, t.Tied loose →
      (∀ q n, loose q n → s ≤ q) → t.get? s = some scope → scope.ancestors = further →
      Unlinked t (t.unlink s name further) s [name] loose := by
  intro further
  induction further with
  | nil =>
    intro t s scope loose h _ hs hanc
    rw [unlink]
    exact unlinked_refl h hs (h.rooted hs hanc)
  | cons p further ih =>
    intro t s scope loose h hloose hs hanc
    cases hr : scope.imports[name]? with
    | none =>
      rw [unlink_of_none hs hr]
      exact unlinked_refl h hs hr
    | some r =>
    obtain ⟨hlt, around, hp, hfurther⟩ := h.parent hs hanc
    have hancp : t.ancestors p = further := by rw [ancestors_of_get? hp, hfurther]
    have hancs : t.ancestors s = p :: further := by rw [ancestors_of_get? hs, hanc]
    have hne : s ≠ p := (Nat.ne_of_lt hlt).symm
    have hf : t.Feeds p r s name := ⟨scope, hs, by rw [hanc, List.head?_cons], hr⟩
    obtain ⟨around', scope', hp', hs', hanchor, -⟩ := h.fed hf
    rw [hp] at hp'
    rw [hs] at hs'
    cases hp'
    cases hs'
    have ho := Bindings.observed_removeReader (h.consistent hp) r
    obtain ⟨hcases, hopened, hreaders⟩ := Bindings.changes_removeReader around.bindings hanchor
    set u := t.disconnected s name p r (around.bindings.removeReader r).2 with hu
    have htied : u.Tied _ := h.disconnected hf hs hp ho
    have hrecedes : t.Recedes u := recedes_disconnected h hf hs hp ho hopened hreaders
    have hshape : t.SameShape u := sameShape_disconnected t s name p r _
    have hget : ∀ {q scope'}, u.get? q = some scope' ↔ _ :=
      fun {q scope'} => get?_disconnected_eq_some_iff h hf hs hp
    have hframe : ∀ q, q ≠ s → q ≠ p → u.get? q = t.get? q := by
      intro q hqs hqp
      rw [hu, disconnected, get?_modify_of_ne _ (Ne.symm hqp), get?_modify_of_ne _ (Ne.symm hqs)]
    rw [unlink_of_imported hs hr hp hne further hu]
    rcases hcases with hclosed | hclosed
    · rw [hclosed, List.isEmpty_nil, if_pos rfl]
      refine ⟨htied.tighten fun q n _ hl _ => .inl ?_, hrecedes, hshape, fun q hq => ?_,
        fun scope' hs' => ?_⟩
      · simpa [hopened, hclosed] using hl
      · simp only [hancs, List.mem_cons, not_or] at hq
        exact hframe q hq.1 hq.2.1
      · rw [hs] at hs'
        cases hs'
        refine ⟨_, hget.mpr (.inr (.inl ⟨rfl, rfl⟩)), rfl, fun n => ?_⟩
        rw [lookup_erase]
        simp only [List.mem_singleton, eq_comm]
    · rw [hclosed, List.isEmpty_cons, if_neg (by simp)]
      have hself : u.get? p = some { around with
          bindings := (around.bindings.removeReader r).2
          readerListeners := around.readerListeners.erase r } := hget.mpr (.inl ⟨rfl, rfl⟩)
      have hout := ih htied (by
        rintro q n (hl | ⟨rfl, -⟩ | ⟨rfl, -⟩)
        · exact Nat.le_trans (Nat.le_of_lt hlt) (hloose q n hl)
        · exact Nat.le_of_lt hlt
        · exact Nat.le_refl _) hself hfurther
      have hancu : u.ancestors p = further := by rw [ancestors_of_get? hself, hfurther]
      have hs_not : s ∉ p :: further := fun hmem =>
        Nat.lt_irrefl s (h.lt_of_mem_ancestors hs (hanc ▸ hmem))
      refine ⟨hout.tied.tighten fun q n scope' hl hq => ?_, hrecedes.trans hout.recedes,
        hshape.trans hout.shape, fun q hq => ?_, fun scope' hs' => ?_⟩
      · by_cases hpn : q = p ∧ n = name
        · -- the parent does not use the name any more, and does not import it
          obtain ⟨rfl, rfl⟩ := hpn
          obtain ⟨new, hnew, hbindings, himports⟩ := hout.self _ hself
          rw [hnew] at hq
          cases hq
          refine .inr (exact_of_unused ?_ (by rw [himports, if_pos List.mem_cons_self]))
          rw [hbindings]
          by_contra hused
          exact ((ho.used n).mp hused).2 (by simp [hclosed])
        · simp only [hopened, hclosed, List.mem_singleton, List.not_mem_nil, false_or] at hl ⊢
          left
          tauto
      · simp only [hancs, List.mem_cons, not_or] at hq
        rw [hout.frame q (by simp only [hancu, List.mem_cons, not_or]; exact hq.2),
          hframe q hq.1 hq.2.1]
      · rw [hs] at hs'
        cases hs'
        refine ⟨{ scope with imports := scope.imports.erase name }, ?_, rfl, fun n => ?_⟩
        · rw [hout.frame s (by rwa [hancu])]
          exact hget.mpr (.inr (.inl ⟨rfl, rfl⟩))
        · rw [lookup_erase]
          simp only [List.mem_singleton, eq_comm]

theorem unlinked_foldl {ancestors : List ScopeId} :
    ∀ (names : List String) {t : ScopeTree} {scope : Scope} {loose : ScopeId → String → Prop},
      t.Tied loose → (∀ q n, loose q n → s ≤ q) → t.get? s = some scope →
      scope.ancestors = ancestors →
      Unlinked t (names.foldl (fun t name => t.unlink s name ancestors) t) s names loose := by
  intro names
  induction names with
  | nil =>
    intro t scope loose h _ hs _
    exact ⟨h.tighten fun _ _ _ hl _ => .inl (.inl hl), Recedes.refl t, SameShape.refl t,
      fun _ _ => rfl, fun scope' hs' => ⟨scope', hs', rfl, fun n => by simp⟩⟩
  | cons name rest ih =>
    intro t scope loose h hloose hs hanc
    have hfirst := unlinked_unlink name ancestors h hloose hs hanc
    set u := t.unlink s name ancestors with hu
    obtain ⟨new, hnew, hbindings, himports⟩ := hfirst.self scope hs
    obtain ⟨old, hold, -, -, hancnew⟩ := hfirst.shape.exists_of_get? hnew
    rw [hs] at hold
    cases hold
    have hrest := ih hfirst.tied (by
      rintro q n (hl | ⟨rfl, -⟩)
      · exact hloose q n hl
      · exact Nat.le_refl _) hnew (hancnew.symm.trans hanc)
    refine ⟨hrest.tied.tighten fun q n _ hl _ => .inl ?_, hfirst.recedes.trans hrest.recedes,
      hfirst.shape.trans hrest.shape, fun q hq => ?_, fun scope' hs' => ?_⟩
    · simp only [List.mem_cons, List.not_mem_nil, or_false] at hl ⊢
      tauto
    · rw [List.foldl_cons, hrest.frame q, hfirst.frame q hq]
      rwa [ancestors_of_get? hnew, ← hancnew, ← ancestors_of_get? hs]
    · rw [hs] at hs'
      cases hs'
      obtain ⟨last, hlast, hbindings', himports'⟩ := hrest.self new hnew
      refine ⟨last, hlast, hbindings'.trans hbindings, fun n => ?_⟩
      rw [himports', himports]
      by_cases hn : n = name <;> simp [hn]

/-! ### Imports follow names -/

/-- What is to be told after a change of bindings, and what the imports then are. -/
structure Followed (t t' : ScopeTree) (s : ScopeId) (opened : List String)
    (readers more : List ReaderId) (all : List ReaderId) : Prop where
  all_eq : all = readers ++ more
  tied : t'.WellTied
  passes : t.Passes t' s more
  shape : t.SameShape t'
  self : ∀ scope, t.get? s = some scope → ∃ scope', t'.get? s = some scope' ∧
    ∀ r, scope'.bindings.anchor? r = scope.bindings.anchor? r
  named : ∀ scope, t.get? s = some scope → ∀ r ∈ more, ∃ n ∈ opened, ∃ p,
    scope.bindings.anchor? r = some (n, p)

/-- Once the names that went out of use are unlinked, only those that came into use are loose. -/
theorem unlinked_closed {changes : Changes}
    (h : t.Tied fun q n => q = s ∧ (n ∈ changes.opened ∨ n ∈ changes.closed))
    (hs : t.get? s = some scope) (hclosed : ∀ n ∈ changes.closed, scope.bindings.slotsOf n = [])
    {u : ScopeTree}
    (hu : u = changes.closed.foldl (fun t name => t.unlink s name scope.ancestors) t) :
    u.Tied (fun q n => q = s ∧ n ∈ changes.opened) ∧ t.Recedes u ∧ t.SameShape u ∧
      ∃ new, u.get? s = some new ∧ new.bindings = scope.bindings ∧
        new.ancestors = scope.ancestors ∧
        ∀ n : String, scope.imports[n]? = none → new.imports[n]? = none := by
  have hout := unlinked_foldl changes.closed h (fun q n hl => Nat.le_of_eq hl.1.symm) hs rfl
  rw [← hu] at hout
  obtain ⟨new, hnew, hbindings, himports⟩ := hout.self scope hs
  obtain ⟨old, hold, -, -, hancnew⟩ := hout.shape.exists_of_get? hnew
  rw [hs] at hold
  cases hold
  refine ⟨hout.tied.tighten fun q n scope' hl hq => ?_, hout.recedes, hout.shape, new, hnew,
    hbindings, hancnew.symm, fun n hnone => by rw [himports, hnone, ite_self]⟩
  by_cases hn : q = s ∧ n ∈ changes.closed
  · obtain ⟨rfl, hn⟩ := hn
    rw [hnew] at hq
    cases hq
    exact .inr (exact_of_unused (by rw [hbindings, hclosed n hn]) (by rw [himports, if_pos hn]))
  · left
    tauto

/-- After the imports have followed a change of bindings, no name is loose. -/
theorem followed_follow {changes : Changes}
    (h : t.Tied fun q n => q = s ∧ (n ∈ changes.opened ∨ n ∈ changes.closed))
    (hs : t.get? s = some scope) (hle : changes.opened.length ≤ 1)
    (hclosed : ∀ n ∈ changes.closed, scope.bindings.slotsOf n = [])
    (hopened : ∀ n ∈ changes.opened, scope.imports[n]? = none ∧
      scope.bindings.imported? n = some .free) :
    ∃ more, Followed t (t.follow s changes).2 s changes.opened changes.readers more
      (t.follow s changes).1 := by
  have hanc : t.ancestors s = scope.ancestors := ancestors_of_get? hs
  set u := changes.closed.foldl (fun t name => t.unlink s name scope.ancestors) t with hu
  obtain ⟨htied, hrecedes, hshape, new, hnew, hbindings, hancnew, himports⟩ :=
    unlinked_closed h hs hclosed hu
  unfold follow
  simp only [hanc, ← hu]
  rcases hlist : changes.opened with - | ⟨name, rest⟩
  · refine ⟨[], by simp, ?_, hrecedes.passes s, hshape, fun scope' hs' => ?_, by simp⟩
    · refine htied.tighten fun q n _ hl _ => .inl ?_
      simp [hlist] at hl
    · rw [hs] at hs'
      cases hs'
      exact ⟨new, hnew, fun r => by rw [hbindings]⟩
  · have hrest : rest = [] := by
      rw [hlist, List.length_cons] at hle
      exact List.eq_nil_of_length_eq_zero (by omega)
    subst hrest
    obtain ⟨hnone, hfree⟩ := hopened name (by simp [hlist])
    have hlinked := linked_link name scope.ancestors htied (fun q n hl => Nat.le_of_eq hl.1.symm) hnew
      hancnew (himports name hnone) (by rw [hbindings, hfree])
    obtain ⟨last, hlast, hanchors, -, hnamed⟩ := hlinked.self new hnew
    refine ⟨_, rfl, ?_, (hrecedes.passes s).trans hlinked.passes, hshape.trans hlinked.shape,
      fun scope' hs' => ?_, fun scope' hs' r hr => ?_⟩
    · refine hlinked.tied.tighten fun q n _ hl _ => .inl ?_
      simp only [hlist, List.mem_singleton] at hl
      exact hl.2 hl.1
    · rw [hs] at hs'
      cases hs'
      exact ⟨last, hlast, fun r => by rw [hanchors, hbindings]⟩
    · rw [hs] at hs'
      cases hs'
      obtain ⟨p, hp⟩ := hnamed r hr
      exact ⟨name, List.mem_singleton_self _, p, by rw [← hbindings, hp]⟩

end ScopeTree

end MathCanvas
