import MathCanvas.Proofs.Scope.Steps

/-!
# Names are connected and disconnected

A scope imports a name by making the importer listen to a new reader in the parent, and it ends
the import by removing that reader. Either step changes two scopes, and in between nothing is in
step: so each is looked at as a whole. Connecting a name that has to be imported puts it in step
(`Tied.connected`), with a link that is settled (`unsettled_connected`); disconnecting a name leaves
it loose (`Tied.disconnected`).
-/

namespace MathCanvas

namespace ScopeTree

variable {t t' : ScopeTree} {s p q c : ScopeId} {scope scope' around : Scope} {r : ReaderId}
  {name n : String} {loose : ScopeId → String → Prop} {b : Bindings} {changes : Changes}

/-! ### A name is connected -/

/-- Two scopes change. -/
theorem get?_modify_modify_eq_some_iff {f g : Scope → Scope} (hs : t.get? s = some scope)
    (hp : t.get? p = some around) (hne : p ≠ s) :
    ((t.modify p f).modify s g).get? q = some scope' ↔
      q = s ∧ scope' = g scope ∨ q = p ∧ scope' = f around ∨
        q ≠ s ∧ q ≠ p ∧ t.get? q = some scope' := by
  rw [get?_modify_eq_some_iff (by rw [get?_modify_of_ne f hne, hs]), get?_modify_eq_some_iff hp]
  constructor
  · rintro (h | ⟨hqs, h | h⟩)
    · exact .inl h
    · exact .inr (.inl h)
    · exact .inr (.inr ⟨hqs, h⟩)
  · rintro (h | ⟨rfl, h⟩ | ⟨hqs, h⟩)
    · exact .inl h
    · exact .inr ⟨hne, .inl ⟨rfl, h⟩⟩
    · exact .inr ⟨hqs, .inr h⟩

/-- The importer of a name listens to a reader in the parent, and the scope has new bindings. -/
def connected (t : ScopeTree) (s : ScopeId) (name : String) (p : ScopeId) (r : ReaderId)
    (b : Bindings) : ScopeTree :=
  (t.listenToReader p r (.importer s name)).modify s fun scope =>
    { scope with bindings := b, imports := scope.imports.insert name r }

/-- What is needed to connect a name: the scope lacks the import, and there is a new reader. -/
structure Connects (t : ScopeTree) (s : ScopeId) (scope : Scope) (name : String) (p : ScopeId)
    (around : Scope) (r : ReaderId) : Prop where
  inner : t.get? s = some scope
  parent : scope.ancestors.head? = some p
  missing : scope.imports[name]? = none
  outer : t.get? p = some around
  anchor : around.bindings.anchor? r = some (name, scope.start)
  unheard : around.readerListeners[r]? = none

theorem sameShape_connected (t : ScopeTree) (s : ScopeId) (name : String) (p : ScopeId)
    (r : ReaderId) (b : Bindings) : t.SameShape (t.connected s name p r b) := by
  have hlisten : t.SameShape (t.listenToReader p r (.importer s name)) :=
    .of_modify fun _ => ⟨rfl, rfl, rfl⟩
  exact hlisten.trans (.of_modify fun _ => ⟨rfl, rfl, rfl⟩)

theorem addListener_of_none {listeners : Std.TreeMap Nat (List Listener)} {x : Nat} (l : Listener)
    (hx : listeners[x]? = none) (y : Nat) :
    (addListener listeners x l)[y]? = if x = y then some [l] else listeners[y]? := by
  rw [addListener, lookup_insert, hx, Option.getD_none, List.nil_append]

section Connected

variable (h : t.Tied loose) (hc : t.Connects s scope name p around r)
  (ho : scope.bindings.Observed b changes none (some name))
include h hc

theorem Connects.lt : p < s := by
  have hparent := hc.parent
  cases hanc : scope.ancestors with
  | nil =>
    rw [hanc] at hparent
    cases hparent
  | cons x further =>
    rw [hanc] at hparent
    cases hparent
    exact (h.parent hc.inner hanc).1

theorem Connects.get?_eq_some_iff : (t.connected s name p r b).get? q = some scope' ↔
    q = s ∧ scope' = { scope with bindings := b, imports := scope.imports.insert name r } ∨
      q = p ∧ scope' = { around with
        readerListeners := addListener around.readerListeners r (.importer s name) } ∨
      q ≠ s ∧ q ≠ p ∧ t.get? q = some scope' :=
  get?_modify_modify_eq_some_iff hc.inner hc.outer (Nat.ne_of_lt (hc.lt h))

/-- There is one link more. -/
theorem Connects.feeds_iff {x : ReaderId} : (t.connected s name p r b).Feeds q x c n ↔
    t.Feeds q x c n ∨ q = p ∧ x = r ∧ c = s ∧ n = name := by
  constructor
  · rintro ⟨scope', hget, hparent, hx⟩
    rcases (hc.get?_eq_some_iff h).mp hget with ⟨rfl, rfl⟩ | ⟨rfl, rfl⟩ | ⟨-, -, hold⟩
    · simp only [hc.parent, Option.some.injEq] at hparent
      rw [lookup_insert] at hx
      by_cases hn : name = n
      · rw [if_pos hn, Option.some.injEq] at hx
        exact .inr ⟨hparent.symm, hx.symm, rfl, hn.symm⟩
      · rw [if_neg hn] at hx
        exact .inl ⟨scope, hc.inner, hparent ▸ hc.parent, hx⟩
    · exact .inl ⟨around, hc.outer, hparent, hx⟩
    · exact .inl ⟨scope', hold, hparent, hx⟩
  · rintro (⟨old, hold, hparent, hx⟩ | ⟨rfl, rfl, rfl, rfl⟩)
    · by_cases hcs : c = s
      · subst hcs
        rw [hc.inner] at hold
        cases hold
        refine ⟨_, (hc.get?_eq_some_iff h).mpr (.inl ⟨rfl, rfl⟩), hparent, ?_⟩
        rw [lookup_insert, if_neg, hx]
        rintro rfl
        rw [hc.missing] at hx
        cases hx
      · by_cases hcp : c = p
        · subst hcp
          rw [hc.outer] at hold
          cases hold
          exact ⟨_, (hc.get?_eq_some_iff h).mpr (.inr (.inl ⟨rfl, rfl⟩)), hparent, hx⟩
        · exact ⟨old, (hc.get?_eq_some_iff h).mpr (.inr (.inr ⟨hcs, hcp, hold⟩)), hparent, hx⟩
    · refine ⟨_, (hc.get?_eq_some_iff h).mpr (.inl ⟨rfl, rfl⟩), hc.parent, ?_⟩
      rw [lookup_insert, if_pos rfl]

include ho in
/-- Connecting a name that has to be imported puts it in step. -/
theorem Tied.connected (hwall : scope.closed = false) (hused : scope.bindings.slotsOf name ≠ [])
    (hopened : changes.opened = []) (hclosed : changes.closed = []) :
    (t.connected s name p r b).Tied fun q n => loose q n ∧ ¬(q = s ∧ n = name) := by
  have hshape : t.SameShape (t.connected s name p r b) := sameShape_connected t s name p r b
  have hget : ∀ {q scope'}, (t.connected s name p r b).get? q = some scope' ↔ _ :=
    fun {q scope'} => hc.get?_eq_some_iff h
  have hfeeds : ∀ {q x c n}, (t.connected s name p r b).Feeds q x c n ↔ _ :=
    fun {q x c n} => hc.feeds_iff h
  have hlisten := addListener_of_none (Listener.importer s name) hc.unheard
  have husedb : ∀ n, b.slotsOf n ≠ [] ↔ scope.bindings.slotsOf n ≠ [] := by
    intro n
    rw [ho.used, hopened, hclosed]
    simp
  refine ⟨h.id_lt_of_sameShape hshape, h.parent_of_sameShape hshape, ?_, ?_, ?_, ?_, ?_, ?_, ?_⟩
  · intro q scope' hq
    rcases hget.mp hq with ⟨rfl, rfl⟩ | ⟨rfl, rfl⟩ | ⟨-, -, hold⟩
    · exact ho.consistent
    · have hold := h.consistent hc.outer
      exact hold
    · exact h.consistent hold
  · intro q scope' x ls hq hls
    rcases hget.mp hq with ⟨rfl, rfl⟩ | ⟨rfl, rfl⟩ | ⟨-, -, hold⟩
    · exact Nat.lt_of_lt_of_le (h.listened_lt hc.inner hls) ho.nextId_le
    · rw [hlisten] at hls
      split at hls
      · rename_i hx
        have hlt := h.reader_lt hc.outer hc.anchor
        rwa [hx] at hlt
      · have hlt := h.listened_lt hc.outer hls
        exact hlt
    · exact h.listened_lt hold hls
  · intro q scope' n hq hanc
    rcases hget.mp hq with ⟨rfl, rfl⟩ | ⟨rfl, rfl⟩ | ⟨-, -, hold⟩
    · have hparent := hc.parent
      rw [show scope.ancestors = [] from hanc] at hparent
      cases hparent
    · have hroot : around.imports[n]? = none := h.rooted hc.outer hanc
      exact hroot
    · exact h.rooted hold hanc
  · intro q x c n hf
    rcases hfeeds.mp hf with hf | ⟨rfl, rfl, rfl, rfl⟩
    · obtain ⟨old, inner, hold, hinner, hanchor, hls⟩ := h.fed hf
      obtain ⟨new, hnew, -, hstart, -⟩ := hshape.symm.exists_of_get? hinner
      by_cases hqs : q = s
      · subst hqs
        rw [hc.inner] at hold
        cases hold
        refine ⟨_, new, hget.mpr (.inl ⟨rfl, rfl⟩), hnew, ?_, hls⟩
        rw [ho.anchor x (by simp), hanchor, hstart]
      · by_cases hqp : q = p
        · subst hqp
          rw [hc.outer] at hold
          cases hold
          refine ⟨_, new, hget.mpr (.inr (.inl ⟨rfl, rfl⟩)), hnew, by rw [hanchor, hstart], ?_⟩
          rw [hlisten, if_neg, hls]
          rintro rfl
          rw [hc.unheard] at hls
          cases hls
        · exact ⟨old, new, hget.mpr (.inr (.inr ⟨hqs, hqp, hold⟩)), hnew,
            by rw [hanchor, hstart], hls⟩
    · refine ⟨_, _, hget.mpr (.inr (.inl ⟨rfl, rfl⟩)), hget.mpr (.inl ⟨rfl, rfl⟩), hc.anchor, ?_⟩
      rw [hlisten, if_pos rfl]
  · intro q around' x ls c n hq hls hmem
    rw [hfeeds]
    rcases hget.mp hq with ⟨rfl, rfl⟩ | ⟨rfl, rfl⟩ | ⟨-, -, hold⟩
    · exact .inl (h.feeds hc.inner hls hmem)
    · rw [hlisten] at hls
      split at hls
      · rename_i hx
        cases hls
        simp only [List.mem_singleton, Listener.importer.injEq] at hmem
        exact .inr ⟨rfl, hx.symm, hmem⟩
      · exact .inl (h.feeds hc.outer hls hmem)
    · exact .inl (h.feeds hold hls hmem)
  · intro q scope' id ls c n hq hls
    rcases hget.mp hq with ⟨rfl, rfl⟩ | ⟨rfl, rfl⟩ | ⟨-, -, hold⟩
    · exact h.silent hc.inner hls
    · exact h.silent hc.outer hls
    · exact h.silent hold hls
  · intro q scope' n hloose hq
    rcases hget.mp hq with ⟨rfl, rfl⟩ | ⟨rfl, rfl⟩ | ⟨hne, -, hold⟩
    · by_cases hn : n = name
      · subst hn
        refine ⟨⟨fun _ => ⟨hwall, ?_, (husedb n).mpr hused⟩, fun _ => ⟨r, ?_⟩⟩, fun hnone => ?_⟩
        · intro hnil
          have hparent := hc.parent
          rw [show scope.ancestors = [] from hnil] at hparent
          cases hparent
        · rw [lookup_insert, if_pos rfl]
        · rw [lookup_insert, if_pos rfl] at hnone
          cases hnone
      · have hexact := h.exact (fun hl => hloose ⟨hl, fun heq => hn heq.2⟩) hc.inner
        refine hexact.of_same rfl rfl ?_ (husedb n) (.inr fun v hv => ?_)
        · rw [lookup_insert, if_neg (Ne.symm hn)]
        · rw [ho.imported n (fun heq => hn (Option.some.inj heq).symm)
            (slotsOf_ne_nil_of_imported? hv), if_neg (by simp [hopened])] at hv
          exact hv
    · have hexact := h.exact (fun hl => hloose ⟨hl, fun heq => Nat.ne_of_lt (hc.lt h) heq.1⟩) hc.outer
      exact hexact.of_same rfl rfl rfl Iff.rfl (.inr fun _ hv => hv)
    · exact h.exact (fun hl => hloose ⟨hl, fun heq => hne heq.1⟩) hold

include ho in
/-- No number is given out again if the reader is a new one. -/
theorem extends_connected {u : ScopeTree} (hu : u.Extends t) {old : Scope}
    (hold : u.get? p = some old) (hfresh : old.bindings.nextId ≤ r) :
    u.Extends (t.connected s name p r b) where
  nextId_le := hu.nextId_le
  scope {q scope'} hq hlt := by
    rcases (hc.get?_eq_some_iff h).mp hq with ⟨rfl, rfl⟩ | ⟨rfl, rfl⟩ | ⟨-, -, hget⟩
    · obtain ⟨before, hbefore, honward⟩ := hu.scope hc.inner hlt
      exact ⟨before, hbefore, honward.trans (.of_observed ho rfl rfl rfl)⟩
    · obtain ⟨before, hbefore, honward⟩ := hu.scope hc.outer hlt
      exact ⟨before, hbefore, honward.closed, honward.ancestors, honward.nextId_le, honward.place⟩
    · exact hu.scope hget hlt
  feeds {q x c n} hx hf := by
    rcases (hc.feeds_iff h).mp hf with hf | ⟨rfl, rfl, -, -⟩
    · exact hu.feeds hx hf
    · exact absurd (hx.2 old hold) (Nat.not_lt.mpr hfresh)

include ho in
theorem told_connected {x : ReaderId} (hx : t.Given q x) {w : SlotValue}
    (hw : (t.connected s name p r b).readerValue? q x = some w) :
    ∃ before, t.readerValue? q x = some before ∧
      (w.same before ∨ q = s ∧ x ∈ changes.readers) := by
  obtain ⟨scope', hscope', hw⟩ := Option.bind_eq_some_iff.mp hw
  rcases (hc.get?_eq_some_iff h).mp hscope' with ⟨rfl, rfl⟩ | ⟨rfl, rfl⟩ | ⟨-, -, hold⟩
  · obtain ⟨before, hbefore, hsame⟩ :=
      ho.exists_before (h.consistent hc.inner) (hx.2 scope hc.inner) hw
    refine ⟨before, ?_, hsame.imp_right fun hmem => ⟨rfl, hmem⟩⟩
    rw [readerValue?, hc.inner, Option.bind_some, hbefore]
  · refine ⟨w, ?_, .inl (SlotValue.same_refl w)⟩
    rw [readerValue?, hc.outer, Option.bind_some, hw]
  · refine ⟨w, ?_, .inl (SlotValue.same_refl w)⟩
    rw [readerValue?, hold, Option.bind_some, hw]

include ho in
/-- The new link is settled if the importer takes the value of the reader. -/
theorem unsettled_connected (hopened : changes.opened = [])
    (hvalue : ∀ v w, b.imported? name = some v → around.bindings.readerValue? r = some w → v.same w)
    {x : ReaderId} (hu : (t.connected s name p r b).Unsettled q x) :
    t.Unsettled q x ∨ q = s ∧ x ∈ changes.readers := by
  have hget : ∀ {q scope'}, (t.connected s name p r b).get? q = some scope' ↔ _ :=
    fun {q scope'} => hc.get?_eq_some_iff h
  obtain ⟨c, n, hlink, hnot⟩ := hu
  rcases (hc.feeds_iff h).mp hlink with hf | ⟨rfl, rfl, rfl, rfl⟩
  · by_cases htold : q = s ∧ x ∈ changes.readers
    · exact .inr htold
    refine .inl ⟨c, n, hf, fun hsettled => hnot (hsettled.of_same (fun v hv => ?_) fun w hw => ?_)⟩
    · obtain ⟨scope', hscope', hv⟩ := Option.bind_eq_some_iff.mp hv
      rcases hget.mp hscope' with ⟨rfl, rfl⟩ | ⟨rfl, rfl⟩ | ⟨-, -, hold⟩
      · have hn : n ≠ name := by
          rintro rfl
          obtain ⟨old, hold, -, hx⟩ := hf
          rw [hc.inner] at hold
          cases hold
          rw [hc.missing] at hx
          cases hx
        rw [ho.imported n (fun heq => hn (Option.some.inj heq).symm)
          (slotsOf_ne_nil_of_imported? hv), if_neg (by simp [hopened])] at hv
        rw [imported?, hc.inner, Option.bind_some, hv]
      · rw [imported?, hc.outer, Option.bind_some, hv]
      · rw [imported?, hold, Option.bind_some, hv]
    · obtain ⟨before, hbefore, hsame⟩ := told_connected h hc ho (h.given_of_feeds hf) hw
      exact ⟨before, hbefore, hsame.resolve_right htold⟩
  · refine absurd (fun v w hv hw => ?_) hnot
    rw [imported?, hget.mpr (.inl ⟨rfl, rfl⟩), Option.bind_some] at hv
    rw [readerValue?, hget.mpr (.inr (.inl ⟨rfl, rfl⟩)), Option.bind_some] at hw
    exact hvalue v w hv hw

end Connected

/-! ### A name is disconnected -/

/-- A scope gives up an import, and the reader in the parent goes. -/
def disconnected (t : ScopeTree) (s : ScopeId) (name : String) (p : ScopeId) (r : ReaderId)
    (b : Bindings) : ScopeTree :=
  (t.modify s fun scope => { scope with imports := scope.imports.erase name }).modify p
    fun around => { around with
      bindings := b, readerListeners := around.readerListeners.erase r }

theorem sameShape_disconnected (t : ScopeTree) (s : ScopeId) (name : String) (p : ScopeId)
    (r : ReaderId) (b : Bindings) : t.SameShape (t.disconnected s name p r b) := by
  have herase : t.SameShape
      (t.modify s fun scope => { scope with imports := scope.imports.erase name }) :=
    .of_modify fun _ => ⟨rfl, rfl, rfl⟩
  exact herase.trans (.of_modify fun _ => ⟨rfl, rfl, rfl⟩)

section Disconnected

variable (h : t.Tied loose) (hf : t.Feeds p r s name) (hs : t.get? s = some scope)
  (hp : t.get? p = some around) (ho : around.bindings.Observed b changes (some r) none)
include h hf hs hp

theorem get?_disconnected_eq_some_iff : (t.disconnected s name p r b).get? q = some scope' ↔
    q = p ∧ scope' = { around with
        bindings := b, readerListeners := around.readerListeners.erase r } ∨
      q = s ∧ scope' = { scope with imports := scope.imports.erase name } ∨
      q ≠ p ∧ q ≠ s ∧ t.get? q = some scope' :=
  get?_modify_modify_eq_some_iff hp hs (Nat.ne_of_lt (h.lt_of_feeds hf)).symm

/-- There is one link less. -/
theorem feeds_disconnected_iff {x : ReaderId} : (t.disconnected s name p r b).Feeds q x c n ↔
    t.Feeds q x c n ∧ ¬(c = s ∧ n = name) := by
  have hne : s ≠ p := (Nat.ne_of_lt (h.lt_of_feeds hf)).symm
  have hget : ∀ {q scope'}, (t.disconnected s name p r b).get? q = some scope' ↔ _ :=
    fun {q scope'} => get?_disconnected_eq_some_iff h hf hs hp
  constructor
  · rintro ⟨scope', hscope', hparent, hx⟩
    rcases hget.mp hscope' with ⟨rfl, rfl⟩ | ⟨rfl, rfl⟩ | ⟨-, hcs, hold⟩
    · exact ⟨⟨around, hp, hparent, hx⟩, fun heq => hne heq.1.symm⟩
    · rw [lookup_erase_eq_some_iff] at hx
      exact ⟨⟨scope, hs, hparent, hx.2⟩, fun heq => hx.1 heq.2.symm⟩
    · exact ⟨⟨scope', hold, hparent, hx⟩, fun heq => hcs heq.1⟩
  · rintro ⟨⟨old, hold, hparent, hx⟩, hnot⟩
    by_cases hcp : c = p
    · subst hcp
      rw [hp] at hold
      cases hold
      exact ⟨_, hget.mpr (.inl ⟨rfl, rfl⟩), hparent, hx⟩
    · by_cases hcs : c = s
      · subst hcs
        rw [hs] at hold
        cases hold
        refine ⟨_, hget.mpr (.inr (.inl ⟨rfl, rfl⟩)), hparent, ?_⟩
        rw [lookup_erase_eq_some_iff]
        exact ⟨fun heq => hnot ⟨rfl, heq.symm⟩, hx⟩
      · exact ⟨old, hget.mpr (.inr (.inr ⟨hcp, hcs, hold⟩)), hparent, hx⟩

include ho in
/-- A name that is disconnected is loose, and so are the names that go out of use with its
reader. -/
theorem Tied.disconnected : (t.disconnected s name p r b).Tied fun q n =>
    loose q n ∨ q = s ∧ n = name ∨ q = p ∧ (n ∈ changes.opened ∨ n ∈ changes.closed) := by
  have hne : s ≠ p := (Nat.ne_of_lt (h.lt_of_feeds hf)).symm
  have hshape : t.SameShape (t.disconnected s name p r b) := sameShape_disconnected t s name p r b
  have hget : ∀ {q scope'}, (t.disconnected s name p r b).get? q = some scope' ↔ _ :=
    fun {q scope'} => get?_disconnected_eq_some_iff h hf hs hp
  have hfeeds : ∀ {q x c n}, (t.disconnected s name p r b).Feeds q x c n ↔ _ :=
    fun {q x c n} => feeds_disconnected_iff h hf hs hp
  refine ⟨h.id_lt_of_sameShape hshape, h.parent_of_sameShape hshape, ?_, ?_, ?_, ?_, ?_, ?_, ?_⟩
  · intro q scope' hq
    rcases hget.mp hq with ⟨rfl, rfl⟩ | ⟨rfl, rfl⟩ | ⟨-, -, hold⟩
    · exact ho.consistent
    · have hold := h.consistent hs
      exact hold
    · exact h.consistent hold
  · intro q scope' x ls hq hls
    rcases hget.mp hq with ⟨rfl, rfl⟩ | ⟨rfl, rfl⟩ | ⟨-, -, hold⟩
    · rw [lookup_erase_eq_some_iff] at hls
      exact Nat.lt_of_lt_of_le (h.listened_lt hp hls.2) ho.nextId_le
    · have hlt := h.listened_lt hs hls
      exact hlt
    · exact h.listened_lt hold hls
  · intro q scope' n hq hanc
    rcases hget.mp hq with ⟨rfl, rfl⟩ | ⟨rfl, rfl⟩ | ⟨-, -, hold⟩
    · have hroot : around.imports[n]? = none := h.rooted hp hanc
      exact hroot
    · have hroot : scope.imports[n]? = none := h.rooted hs hanc
      rw [lookup_erase, hroot, ite_self]
    · exact h.rooted hold hanc
  · intro q x c n hlink
    obtain ⟨hf', hnot⟩ := hfeeds.mp hlink
    obtain ⟨old, inner, hold, hinner, hanchor, hls⟩ := h.fed hf'
    obtain ⟨new, hnew, -, hstart, -⟩ := hshape.symm.exists_of_get? hinner
    by_cases hqp : q = p
    · subst hqp
      rw [hp] at hold
      cases hold
      have hx : r ≠ x := by
        rintro rfl
        obtain ⟨rfl, rfl⟩ := h.feeds_inj hf hf'
        exact hnot ⟨rfl, rfl⟩
      refine ⟨_, new, hget.mpr (.inl ⟨rfl, rfl⟩), hnew, ?_, ?_⟩
      · rw [ho.anchor x (fun heq => hx (Option.some.inj heq)), hanchor, hstart]
      · rw [lookup_erase_of_ne _ hx, hls]
    · by_cases hqs : q = s
      · subst hqs
        rw [hs] at hold
        cases hold
        exact ⟨_, new, hget.mpr (.inr (.inl ⟨rfl, rfl⟩)), hnew, by rw [hanchor, hstart], hls⟩
      · exact ⟨old, new, hget.mpr (.inr (.inr ⟨hqp, hqs, hold⟩)), hnew,
          by rw [hanchor, hstart], hls⟩
  · intro q around' x ls c n hq hls hmem
    rw [hfeeds]
    have hold : t.Feeds q x c n ∧ ¬(q = p ∧ x = r) := by
      rcases hget.mp hq with ⟨rfl, rfl⟩ | ⟨rfl, rfl⟩ | ⟨hqp, -, hold⟩
      · rw [lookup_erase_eq_some_iff] at hls
        exact ⟨h.feeds hp hls.2 hmem, fun heq => hls.1 heq.2.symm⟩
      · exact ⟨h.feeds hs hls hmem, fun heq => hne heq.1⟩
      · exact ⟨h.feeds hold hls hmem, fun heq => hqp heq.1⟩
    refine ⟨hold.1, ?_⟩
    rintro ⟨rfl, rfl⟩
    obtain ⟨rfl, rfl⟩ := feeds_unique hf hold.1
    exact hold.2 ⟨rfl, rfl⟩
  · intro q scope' id ls c n hq hls
    rcases hget.mp hq with ⟨rfl, rfl⟩ | ⟨rfl, rfl⟩ | ⟨-, -, hold⟩
    · exact h.silent hp hls
    · exact h.silent hs hls
    · exact h.silent hold hls
  · intro q scope' n hloose hq
    push Not at hloose
    rcases hget.mp hq with ⟨rfl, rfl⟩ | ⟨rfl, rfl⟩ | ⟨-, -, hold⟩
    · obtain ⟨hopened, hclosed⟩ := hloose.2.2 rfl
      refine (h.exact hloose.1 hp).of_same rfl rfl rfl ?_ (.inr fun v hv => ?_)
      · rw [ho.used]
        simp [hopened, hclosed]
      · rw [ho.imported n (by simp) (slotsOf_ne_nil_of_imported? hv), if_neg hopened] at hv
        exact hv
    · have hn := hloose.2.1 rfl
      refine (h.exact hloose.1 hs).of_same rfl rfl ?_ Iff.rfl (.inr fun _ hv => hv)
      rw [lookup_erase_of_ne _ (Ne.symm hn)]
    · exact h.exact hloose.1 hold

include ho in
theorem extends_disconnected : t.Extends (t.disconnected s name p r b) where
  nextId_le := Nat.le_refl _
  scope {q scope'} hq _ := by
    rcases (get?_disconnected_eq_some_iff h hf hs hp).mp hq with
      ⟨rfl, rfl⟩ | ⟨rfl, rfl⟩ | ⟨-, -, hold⟩
    · exact ⟨around, hp, .of_observed ho rfl rfl rfl⟩
    · exact ⟨scope, hs, rfl, rfl, Nat.le_refl _, fun _ _ himp => himp⟩
    · exact ⟨scope', hold, .refl scope'⟩
  feeds _ hf' := ((feeds_disconnected_iff h hf hs hp).mp hf').1

include ho in
/-- The readers that stay observe what they observed. -/
theorem told_disconnected (hreaders : changes.readers = []) {x : ReaderId} (hx : t.Given q x)
    {w : SlotValue} (hw : (t.disconnected s name p r b).readerValue? q x = some w) :
    ∃ before, t.readerValue? q x = some before ∧ w.same before := by
  obtain ⟨scope', hscope', hw⟩ := Option.bind_eq_some_iff.mp hw
  rcases (get?_disconnected_eq_some_iff h hf hs hp).mp hscope' with
    ⟨rfl, rfl⟩ | ⟨rfl, rfl⟩ | ⟨-, -, hold⟩
  · obtain ⟨before, hbefore, hsame⟩ := ho.exists_before (h.consistent hp) (hx.2 around hp) hw
    refine ⟨before, ?_, hsame.resolve_right (by simp [hreaders])⟩
    rw [readerValue?, hp, Option.bind_some, hbefore]
  · refine ⟨w, ?_, SlotValue.same_refl w⟩
    rw [readerValue?, hs, Option.bind_some, hw]
  · refine ⟨w, ?_, SlotValue.same_refl w⟩
    rw [readerValue?, hold, Option.bind_some, hw]

include ho in
/-- No link becomes unsettled, and none is new. -/
theorem recedes_disconnected (hopened : changes.opened = []) (hreaders : changes.readers = []) :
    t.Recedes (t.disconnected s name p r b) := by
  refine ⟨rfl, fun u => ⟨extends_disconnected h hf hs hp ho, fun {q x now} hx hnow => ?_,
    fun {q x} hu => ?_⟩, fun hlink => ((feeds_disconnected_iff h hf hs hp).mp hlink).1⟩
  · obtain ⟨before, hbefore, hsame⟩ := told_disconnected h hf hs hp ho hreaders hx hnow
    exact ⟨before, hbefore, .inl hsame⟩
  · have hget : ∀ {q scope'}, (t.disconnected s name p r b).get? q = some scope' ↔ _ :=
      fun {q scope'} => get?_disconnected_eq_some_iff h hf hs hp
    obtain ⟨c, n, hlink, hnot⟩ := hu
    obtain ⟨hf', -⟩ := (feeds_disconnected_iff h hf hs hp).mp hlink
    refine .inl ⟨c, n, hf', fun hsettled => hnot (hsettled.of_same (fun v hv => ?_) fun w hw => ?_)⟩
    · obtain ⟨scope', hscope', hv⟩ := Option.bind_eq_some_iff.mp hv
      rcases hget.mp hscope' with ⟨rfl, rfl⟩ | ⟨rfl, rfl⟩ | ⟨-, -, hold⟩
      · rw [ho.imported n (by simp) (slotsOf_ne_nil_of_imported? hv),
          if_neg (by simp [hopened])] at hv
        rw [imported?, hp, Option.bind_some, hv]
      · rw [imported?, hs, Option.bind_some, hv]
      · rw [imported?, hold, Option.bind_some, hv]
    · exact told_disconnected h hf hs hp ho hreaders (h.given_of_feeds hf') hw

end Disconnected

end ScopeTree

end MathCanvas
