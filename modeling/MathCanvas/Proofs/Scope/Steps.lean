import MathCanvas.Proofs.Scope.Tied

/-!
# One scope changes

Operations on a tree are made of steps that change one scope. What such a step does to a tree that is
tied: the bindings of a scope change (`Tied.setBindings`), or its listeners change
(`Tied.relisten`). Names that the change brings into use or puts out of use are loose afterwards.
-/

namespace MathCanvas

namespace ScopeTree

variable {t t' : ScopeTree} {s p q c : ScopeId} {scope scope' around : Scope} {r : ReaderId}
  {name n : String} {loose : ScopeId → String → Prop} {b : Bindings} {changes : Changes}
  {own : Option ReaderId} {source : Option String}

/-! ### Links that stay -/

theorem feeds_modify_iff {f : Scope → Scope} (hf : ∀ scope, (f scope).ancestors = scope.ancestors ∧
    (f scope).imports = scope.imports) : (t.modify s f).Feeds p r c n ↔ t.Feeds p r c n := by
  constructor
  · rintro ⟨scope', hc, hp, hr⟩
    obtain ⟨scope, hscope, rfl | rfl⟩ := exists_of_get?_modify hc
    · rw [(hf scope).1] at hp
      rw [(hf scope).2] at hr
      exact ⟨scope, hscope, hp, hr⟩
    · exact ⟨scope', hscope, hp, hr⟩
  · rintro ⟨scope, hc, hp, hr⟩
    by_cases hs : s = c
    · subst hs
      exact ⟨f scope, get?_modify_self f hc, by rw [(hf scope).1, hp], by rw [(hf scope).2, hr]⟩
    · exact ⟨scope, by rw [get?_modify_of_ne f hs, hc], hp, hr⟩

theorem feeds_setBindings_iff : (t.setBindings s b).Feeds p r c n ↔ t.Feeds p r c n :=
  feeds_modify_iff fun _ => ⟨rfl, rfl⟩

theorem get?_setBindings_eq_some_iff (hs : t.get? s = some scope) :
    (t.setBindings s b).get? q = some scope' ↔
      q = s ∧ scope' = { scope with bindings := b } ∨ q ≠ s ∧ t.get? q = some scope' :=
  get?_modify_eq_some_iff hs

/-- A link stays settled if the importer keeps its value, and the reader as well. -/
theorem Settled.of_same (h : t.Settled p r c n)
    (himp : ∀ v, t'.imported? c n = some v → t.imported? c n = some v)
    (hread : ∀ w, t'.readerValue? p r = some w → ∃ before, t.readerValue? p r = some before ∧
      w.same before) : t'.Settled p r c n := by
  intro v w hv hw
  obtain ⟨before, hbefore, hsame⟩ := hread w hw
  exact SlotValue.same_trans (h v before (himp v hv) hbefore) (SlotValue.same_symm hsame)

/-! ### The bindings change -/

theorem slotsOf_ne_nil_of_imported? {v : SlotValue} (h : b.imported? n = some v) :
    b.slotsOf n ≠ [] := by
  rintro hnil
  rw [Bindings.imported?, Bindings.importer?, hnil] at h
  cases h

/-- The names that the change brings into use or puts out of use become loose. -/
theorem Tied.setBindings (h : t.Tied loose) (hs : t.get? s = some scope)
    (ho : scope.bindings.Observed b changes own source)
    (hown : ∀ r, own = some r → ∀ c n, ¬t.Feeds s r c n)
    (hsource : ∀ n, source = some n → ∃ r, scope.imports[n]? = some r) :
    (t.setBindings s b).Tied fun q n =>
      loose q n ∨ q = s ∧ (n ∈ changes.opened ∨ n ∈ changes.closed) := by
  have hshape : t.SameShape (t.setBindings s b) := .of_modify fun _ => ⟨rfl, rfl, rfl⟩
  have hget : ∀ {q scope'}, (t.setBindings s b).get? q = some scope' ↔
      q = s ∧ scope' = { scope with bindings := b } ∨ q ≠ s ∧ t.get? q = some scope' :=
    get?_setBindings_eq_some_iff hs
  refine ⟨h.id_lt_of_sameShape hshape, h.parent_of_sameShape hshape, ?_, ?_, ?_, ?_, ?_, ?_, ?_⟩
  · intro q scope' hq
    rcases hget.mp hq with ⟨rfl, rfl⟩ | ⟨-, hold⟩
    · exact ho.consistent
    · exact h.consistent hold
  · intro q scope' r ls hq hls
    rcases hget.mp hq with ⟨rfl, rfl⟩ | ⟨-, hold⟩
    · exact Nat.lt_of_lt_of_le (h.listened_lt hs hls) ho.nextId_le
    · exact h.listened_lt hold hls
  · intro q scope' n hq hanc
    rcases hget.mp hq with ⟨rfl, rfl⟩ | ⟨-, hold⟩
    · have hroot : scope.imports[n]? = none := h.rooted hs hanc
      exact hroot
    · exact h.rooted hold hanc
  · intro p r q n hf
    rw [feeds_setBindings_iff] at hf
    obtain ⟨around, old, haround, hold, hanchor, hlisten⟩ := h.fed hf
    obtain ⟨new, hnew, -, hstart, -⟩ := hshape.symm.exists_of_get? hold
    by_cases hps : p = s
    · subst hps
      rw [hs] at haround
      cases haround
      refine ⟨_, new, hget.mpr (.inl ⟨rfl, rfl⟩), hnew, ?_, hlisten⟩
      rw [ho.anchor r fun heq => hown r heq q n hf, hanchor, hstart]
    · exact ⟨around, new, hget.mpr (.inr ⟨hps, haround⟩), hnew, by rw [hanchor, hstart], hlisten⟩
  · intro p around r ls c n hp hls hmem
    rw [feeds_setBindings_iff]
    rcases hget.mp hp with ⟨rfl, rfl⟩ | ⟨-, hold⟩
    · exact h.feeds hs hls hmem
    · exact h.feeds hold hls hmem
  · intro q scope' id ls c n hq hls
    rcases hget.mp hq with ⟨rfl, rfl⟩ | ⟨-, hold⟩
    · exact h.silent hs hls
    · exact h.silent hold hls
  · intro q scope' n hloose hq
    push Not at hloose
    rcases hget.mp hq with ⟨rfl, rfl⟩ | ⟨-, hold⟩
    · obtain ⟨hopened, hclosed⟩ := hloose.2 rfl
      refine (h.exact hloose.1 hs).of_same rfl rfl rfl ?_ ?_
      · rw [ho.used]
        simp [hopened, hclosed]
      · by_cases hn : source = some n
        · exact .inl (hsource n hn)
        · refine .inr fun v hv => ?_
          rw [ho.imported n hn (slotsOf_ne_nil_of_imported? hv), if_neg hopened] at hv
          exact hv
    · exact h.exact hloose.1 hold

/-- A reader observes what it observed before, or is told. -/
theorem told_setBindings (h : t.Tied loose) (hs : t.get? s = some scope)
    (ho : scope.bindings.Observed b changes own source) (hr : t.Given p r) {w : SlotValue}
    (hw : (t.setBindings s b).readerValue? p r = some w) :
    ∃ before, t.readerValue? p r = some before ∧
      (w.same before ∨ p = s ∧ r ∈ changes.readers) := by
  obtain ⟨around', haround', hw⟩ := Option.bind_eq_some_iff.mp hw
  rcases (get?_setBindings_eq_some_iff hs).mp haround' with ⟨rfl, rfl⟩ | ⟨-, hold⟩
  · obtain ⟨before, hbefore, hsame⟩ := ho.exists_before (h.consistent hs) (hr.2 scope hs) hw
    refine ⟨before, ?_, hsame.imp_right fun hmem => ⟨rfl, hmem⟩⟩
    rw [readerValue?, hs, Option.bind_some, hbefore]
  · refine ⟨w, ?_, .inl (SlotValue.same_refl w)⟩
    rw [readerValue?, hold, Option.bind_some, hw]

theorem imported?_setBindings (hs : t.get? s = some scope)
    (ho : scope.bindings.Observed b changes own source) (hn : c = s → n ∉ changes.opened)
    (hsource : c = s → source ≠ some n) {v : SlotValue}
    (hv : (t.setBindings s b).imported? c n = some v) : t.imported? c n = some v := by
  obtain ⟨scope', hscope', hv⟩ := Option.bind_eq_some_iff.mp hv
  rcases (get?_setBindings_eq_some_iff hs).mp hscope' with ⟨rfl, rfl⟩ | ⟨-, hold⟩
  · rw [ho.imported n (hsource rfl) (slotsOf_ne_nil_of_imported? hv), if_neg (hn rfl)] at hv
    rw [imported?, hs, Option.bind_some, hv]
  · rw [imported?, hold, Option.bind_some, hv]

/-- Only the link of the name `source`, and the links of the readers that are told, can become
unsettled. -/
theorem unsettled_setBindings (h : t.Tied loose) (hs : t.get? s = some scope)
    (ho : scope.bindings.Observed b changes own source)
    (hopened : ∀ n ∈ changes.opened, scope.imports[n]? = none)
    (hu : (t.setBindings s b).Unsettled p r) :
    t.Unsettled p r ∨ p = s ∧ r ∈ changes.readers ∨
      ∃ n, source = some n ∧ t.Feeds p r s n ∧ ¬(t.setBindings s b).Settled p r s n := by
  obtain ⟨c, n, hf, hnot⟩ := hu
  rw [feeds_setBindings_iff] at hf
  by_cases hsource : c = s ∧ source = some n
  · obtain ⟨rfl, hsource⟩ := hsource
    exact .inr (.inr ⟨n, hsource, hf, hnot⟩)
  by_cases htold : p = s ∧ r ∈ changes.readers
  · exact .inr (.inl htold)
  refine .inl ⟨c, n, hf, fun hsettled => hnot ?_⟩
  refine hsettled.of_same (fun v hv => imported?_setBindings hs ho ?_ ?_ hv) fun w hw => ?_
  · -- a name that comes into use now was not imported
    rintro rfl hmem
    obtain ⟨scope', hscope', -, hr⟩ := hf
    rw [hs] at hscope'
    cases hscope'
    rw [hopened n hmem] at hr
    cases hr
  · exact fun hc hn => hsource ⟨hc, hn⟩
  · obtain ⟨before, hbefore, hsame⟩ := told_setBindings h hs ho (h.given_of_feeds hf) hw
    exact ⟨before, hbefore, hsame.resolve_right htold⟩

theorem extends_setBindings (hs : t.get? s = some scope)
    (ho : scope.bindings.Observed b changes own source) : t.Extends (t.setBindings s b) where
  nextId_le := Nat.le_refl _
  scope {q scope'} hq hlt := by
    rcases (get?_setBindings_eq_some_iff hs).mp hq with ⟨rfl, rfl⟩ | ⟨-, hold⟩
    · exact ⟨scope, hs, .of_observed ho rfl rfl rfl⟩
    · exact ⟨scope', hold, .refl scope'⟩
  feeds _ hf := feeds_setBindings_iff.mp hf

theorem passes_setBindings (h : t.Tied loose) (hs : t.get? s = some scope)
    (ho : scope.bindings.Observed b changes own none)
    (hopened : ∀ n ∈ changes.opened, scope.imports[n]? = none) :
    t.Passes (t.setBindings s b) s changes.readers :=
  { extends_setBindings hs ho with
    told := fun {p r now} hr hnow => told_setBindings h hs ho hr hnow
    unsettled := fun {p r} hu => by
      rcases unsettled_setBindings h hs ho hopened hu with hu | htold | ⟨n, hn, -⟩
      · exact .inl hu
      · exact .inr htold
      · cases hn }

/-! ### The listeners change -/

/-- What a change of listeners has to keep: those of the readers that feed importers, and that
nobody else is such a listener. -/
structure Relistens (t : ScopeTree) (s : ScopeId) (scope scope' : Scope) : Prop where
  same : scope' = { scope with
    readerListeners := scope'.readerListeners
    definitionListeners := scope'.definitionListeners }
  listened_lt : ∀ {r : ReaderId} {ls : List Listener}, scope'.readerListeners[r]? = some ls →
    r < scope.bindings.nextId
  kept : ∀ {r : ReaderId} {c : ScopeId} {n : String}, t.Feeds s r c n →
    scope'.readerListeners[r]? = scope.readerListeners[r]?
  feeds : ∀ {r : ReaderId} {ls : List Listener} {c : ScopeId} {n : String},
    scope'.readerListeners[r]? = some ls → .importer c n ∈ ls →
      ∃ ls', scope.readerListeners[r]? = some ls' ∧ .importer c n ∈ ls'
  silent : ∀ {id : SlotId} {ls : List Listener} {c : ScopeId} {n : String},
    scope'.definitionListeners[id]? = some ls → .importer c n ∈ ls →
      ∃ ls', scope.definitionListeners[id]? = some ls' ∧ .importer c n ∈ ls'

section Relisten

variable {f : Scope → Scope} (hs : t.get? s = some scope) (hf : t.Relistens s scope (f scope))
include hs hf

theorem feeds_relisten_iff : (t.modify s f).Feeds p r c n ↔ t.Feeds p r c n := by
  have hget : ∀ {q scope'}, (t.modify s f).get? q = some scope' ↔ _ :=
    fun {q scope'} => get?_modify_eq_some_iff hs
  have hanc : (f scope).ancestors = scope.ancestors := by rw [hf.same]
  have himports : (f scope).imports = scope.imports := by rw [hf.same]
  constructor
  · rintro ⟨scope', hscope', hparent, hr⟩
    rcases hget.mp hscope' with ⟨rfl, rfl⟩ | ⟨-, hold⟩
    · exact ⟨scope, hs, hanc ▸ hparent, himports ▸ hr⟩
    · exact ⟨scope', hold, hparent, hr⟩
  · rintro ⟨old, hold, hparent, hr⟩
    by_cases hcs : c = s
    · subst hcs
      rw [hs] at hold
      cases hold
      exact ⟨_, hget.mpr (.inl ⟨rfl, rfl⟩), by rw [hanc, hparent], by rw [himports, hr]⟩
    · exact ⟨old, hget.mpr (.inr ⟨hcs, hold⟩), hparent, hr⟩

theorem sameShape_relisten : t.SameShape (t.modify s f) := by
  refine ⟨rfl, fun q => ?_⟩
  rw [get?_modify]
  split
  · rename_i hq
    rw [← hq, hs, Option.map_some, Option.map_some, Option.map_some, hf.same]
  · rfl

theorem Tied.relisten (h : t.Tied loose) : (t.modify s f).Tied loose := by
  have hshape : t.SameShape (t.modify s f) := sameShape_relisten hs hf
  have hget : ∀ {q scope'}, (t.modify s f).get? q = some scope' ↔ _ :=
    fun {q scope'} => get?_modify_eq_some_iff hs
  have hbindings : (f scope).bindings = scope.bindings := by rw [hf.same]
  have hanc : (f scope).ancestors = scope.ancestors := by rw [hf.same]
  have himports : (f scope).imports = scope.imports := by rw [hf.same]
  refine ⟨h.id_lt_of_sameShape hshape, h.parent_of_sameShape hshape, ?_, ?_, ?_, ?_, ?_, ?_, ?_⟩
  · intro q scope' hq
    rcases hget.mp hq with ⟨rfl, rfl⟩ | ⟨-, hold⟩
    · rw [hbindings]
      exact h.consistent hs
    · exact h.consistent hold
  · intro q scope' r ls hq hls
    rcases hget.mp hq with ⟨rfl, rfl⟩ | ⟨-, hold⟩
    · rw [hbindings]
      exact hf.listened_lt hls
    · exact h.listened_lt hold hls
  · intro q scope' n hq hroot
    rcases hget.mp hq with ⟨rfl, rfl⟩ | ⟨-, hold⟩
    · rw [himports]
      exact h.rooted hs (hanc ▸ hroot)
    · exact h.rooted hold hroot
  · intro p r q n hfeeds
    have hlink := (feeds_relisten_iff hs hf).mp hfeeds
    obtain ⟨around, old, haround, hold, hanchor, hls⟩ := h.fed hlink
    obtain ⟨new, hnew, -, hstart, -⟩ := hshape.symm.exists_of_get? hold
    by_cases hps : p = s
    · subst hps
      rw [hs] at haround
      cases haround
      refine ⟨_, new, hget.mpr (.inl ⟨rfl, rfl⟩), hnew, ?_, ?_⟩
      · rw [hbindings, hanchor, hstart]
      · rw [hf.kept hlink, hls]
    · exact ⟨around, new, hget.mpr (.inr ⟨hps, haround⟩), hnew, by rw [hanchor, hstart], hls⟩
  · intro p around r ls c n hp hls hmem
    rw [feeds_relisten_iff hs hf]
    rcases hget.mp hp with ⟨rfl, rfl⟩ | ⟨-, hold⟩
    · obtain ⟨ls', hls', hmem'⟩ := hf.feeds hls hmem
      exact h.feeds hs hls' hmem'
    · exact h.feeds hold hls hmem
  · intro q scope' id ls c n hq hls hmem
    rcases hget.mp hq with ⟨rfl, rfl⟩ | ⟨-, hold⟩
    · obtain ⟨ls', hls', hmem'⟩ := hf.silent hls hmem
      exact h.silent hs hls' hmem'
    · exact h.silent hold hls hmem
  · intro q scope' n hloose hq
    rcases hget.mp hq with ⟨rfl, rfl⟩ | ⟨-, hold⟩
    · refine (h.exact hloose hs).of_same ?_ hanc (by rw [himports]) (by rw [hbindings])
        (.inr fun v hv => hbindings ▸ hv)
      rw [hf.same]
    · exact h.exact hloose hold

theorem passes_relisten (u : ScopeId) : t.Passes (t.modify s f) u [] := by
  have hbindings : (f scope).bindings = scope.bindings := by rw [hf.same]
  have hget : ∀ q, ((t.modify s f).get? q).map Scope.bindings = (t.get? q).map Scope.bindings := by
    intro q
    rw [get?_modify]
    split
    · rename_i hq
      rw [← hq, hs, Option.map_some, Option.map_some, Option.map_some, hbindings]
    · rfl
  have himported : ∀ c n, (t.modify s f).imported? c n = t.imported? c n := by
    intro c n
    have hmap : ∀ (u : ScopeTree), u.imported? c n =
        ((u.get? c).map Scope.bindings).bind (·.imported? n) := by
      intro u
      rw [imported?, Option.bind_map]
      rfl
    rw [hmap, hmap, hget]
  have hreader : ∀ p r, (t.modify s f).readerValue? p r = t.readerValue? p r := by
    intro p r
    have hmap : ∀ (u : ScopeTree), u.readerValue? p r =
        ((u.get? p).map Scope.bindings).bind (·.readerValue? r) := by
      intro u
      rw [readerValue?, Option.bind_map]
      rfl
    rw [hmap, hmap, hget]
  refine ⟨⟨Nat.le_refl _, fun {q scope'} hq _ => ?_, fun _ hlink => ?_⟩,
    fun {p r now} _ hnow => ⟨now, hreader p r ▸ hnow, .inl (SlotValue.same_refl now)⟩,
    fun {p r} hu => .inl ?_⟩
  · rcases (get?_modify_eq_some_iff hs).mp hq with ⟨rfl, rfl⟩ | ⟨-, hold⟩
    · refine ⟨scope, hs, by rw [hf.same], by rw [hf.same], ?_, ?_⟩
      · rw [hbindings]
      · rw [hbindings]
        exact fun _ _ himp => himp
    · exact ⟨scope', hold, .refl scope'⟩
  · exact (feeds_relisten_iff hs hf).mp hlink
  · obtain ⟨c, n, hlink, hnot⟩ := hu
    refine ⟨c, n, (feeds_relisten_iff hs hf).mp hlink, fun hsettled => hnot fun v w hv hw => ?_⟩
    exact hsettled v w (himported c n ▸ hv) (hreader p r ▸ hw)

end Relisten

end ScopeTree

end MathCanvas
