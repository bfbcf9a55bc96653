import MathCanvas.Proofs.Scope.Imports

/-!
# Operations on a tree that is tied

Every operation takes a tree that is tied to one that is tied, gives no number out again, and
returns the readers that have to be told: a link that is unsettled afterwards was so before, or its
reader is among them (`Advances`). What a scope is called for, and whether somebody else than an
importer is allowed to, is said in terms of the numbers that were made for others (`Lent`,
`LentSlot`): moving or removing the reader of an import would break it.
-/

namespace MathCanvas

namespace ScopeTree

variable {t t' t'' : ScopeTree} {s p q c : ScopeId} {scope scope' around : Scope} {r : ReaderId}
  {name n : String} {id : SlotId} {readers : List ReaderId}

/-- An operation on a tree that is tied. -/
structure Advances (t t' : ScopeTree) (s : ScopeId) (readers : List ReaderId) : Prop
    extends Passes t t' s readers where
  tied : t'.WellTied

theorem Advances.refl (h : t.WellTied) (s : ScopeId) : t.Advances t s [] :=
  { Passes.refl t s with tied := h }

theorem Advances.trans {more : List ReaderId} (h : t.Advances t' s readers)
    (h' : t'.Advances t'' s more) : t.Advances t'' s (readers ++ more) :=
  { h.toPasses.trans h'.toPasses with tied := h'.tied }

/-- A tree with the same scopes is the same for all purposes. -/
theorem advances_of_get?_eq (h : t.WellTied) (hget : ∀ q, t'.get? q = t.get? q)
    (hnext : t'.nextId = t.nextId) (s : ScopeId) : t.Advances t' s [] := by
  have hfeeds : ∀ p r c n, t'.Feeds p r c n ↔ t.Feeds p r c n := by
    intro p r c n
    rw [Feeds, Feeds, hget]
  have hshape : t.SameShape t' := ⟨hnext, fun q => by rw [hget]⟩
  refine ⟨⟨⟨Nat.le_of_eq hnext.symm, fun {q scope'} hq _ => ?_,
    fun _ hf => (hfeeds _ _ _ _).mp hf⟩, fun {p r now} _ hnow => ⟨now, ?_, .inl now.same_refl⟩,
    fun {p r} hu => .inl ?_⟩, h.id_lt_of_sameShape hshape, h.parent_of_sameShape hshape,
    fun hq => h.consistent (hget _ ▸ hq), fun hq => h.listened_lt (hget _ ▸ hq),
    fun hq => h.rooted (hget _ ▸ hq), fun hf => ?_, fun hq hls hmem => ?_,
    fun hq => h.silent (hget _ ▸ hq), fun hl hq => h.exact hl (hget _ ▸ hq)⟩
  · rw [hget] at hq
    exact ⟨scope', hq, .refl scope'⟩
  · rwa [readerValue?, hget] at hnow
  · obtain ⟨c, n, hf, hnot⟩ := hu
    refine ⟨c, n, (hfeeds _ _ _ _).mp hf, fun hsettled => hnot fun v w hv hw => ?_⟩
    rw [imported?, hget] at hv
    rw [readerValue?, hget] at hw
    exact hsettled v w hv hw
  · simp only [hget]
    exact h.fed ((hfeeds _ _ _ _).mp hf)
  · exact (hfeeds _ _ _ _).mpr (h.feeds (hget _ ▸ hq) hls hmem)

/-- A change of listeners of a scope that may be gone. -/
theorem advances_relisten (h : t.WellTied) (s : ScopeId) {f : Scope → Scope}
    (hf : ∀ scope, t.get? s = some scope → t.Relistens s scope (f scope)) (u : ScopeId) :
    t.Advances (t.modify s f) u [] := by
  cases hs : t.get? s with
  | none =>
    have hnext : (t.modify s f).nextId = t.nextId := rfl
    refine advances_of_get?_eq h (fun q => ?_) hnext u
    rw [get?_modify]
    split
    · rename_i hq
      rw [← hq, hs, Option.map_none]
    · rfl
  | some scope =>
    have hrelistens := hf scope hs
    exact { passes_relisten hs hrelistens u with tied := Tied.relisten hs hrelistens h }

/-! ### Changes of bindings -/

section Change

variable {b : Bindings} {changes : Changes} {own : Option ReaderId}

/-- The bindings of a scope change: the names that came into use or went out of it are loose. -/
theorem tied_setBindings (h : t.WellTied) (hs : t.get? s = some scope)
    (ho : scope.bindings.Observed b changes own none)
    (hown : ∀ r, own = some r → ∀ c n, ¬t.Feeds s r c n) :
    (t.setBindings s b).Tied (fun q n => q = s ∧ (n ∈ changes.opened ∨ n ∈ changes.closed)) ∧
      (∀ n ∈ changes.closed, b.slotsOf n = []) ∧
      ∀ n ∈ changes.opened, scope.imports[n]? = none ∧ b.imported? n = some .free := by
  have himports := Tied.imports_of_opened h (fun _ => id) hs ho
  refine ⟨(h.setBindings hs ho hown (by simp)).tighten fun q n _ hl _ => .inl ?_, fun n hn => ?_,
    fun n hn => ⟨himports n hn, ?_⟩⟩
  · simpa using hl
  · by_contra hused
    exact ((ho.used n).mp hused).2 hn
  · have hclosed : n ∉ changes.closed := by
      rcases ho.one_sided with hnil | hnil
      · simp [hnil] at hn
      · simp [hnil]
    have hused : b.slotsOf n ≠ [] := (ho.used n).mpr ⟨.inl hn, hclosed⟩
    have himp := ho.imported n (by simp) hused
    rwa [if_pos hn] at himp

/-- The bindings of a scope change, and the imports follow. -/
theorem followed_setBindings (h : t.WellTied) (hs : t.get? s = some scope)
    (ho : scope.bindings.Observed b changes own none)
    (hown : ∀ r, own = some r → ∀ c n, ¬t.Feeds s r c n) :
    ∃ more, Followed (t.setBindings s b) ((t.setBindings s b).follow s changes).2 s changes.opened
      changes.readers more ((t.setBindings s b).follow s changes).1 := by
  obtain ⟨htied, hclosed, hopened⟩ := tied_setBindings h hs ho hown
  have hself : (t.setBindings s b).get? s = some { scope with bindings := b } :=
    get?_modify_self _ hs
  exact followed_follow htied hself ho.opened_le hclosed hopened

/-- An operation on the bindings of a scope. -/
theorem advances_follow (h : t.WellTied) (hs : t.get? s = some scope)
    (ho : scope.bindings.Observed b changes own none)
    (hown : ∀ r, own = some r → ∀ c n, ¬t.Feeds s r c n) :
    t.Advances ((t.setBindings s b).follow s changes).2 s
      ((t.setBindings s b).follow s changes).1 := by
  obtain ⟨more, hf⟩ := followed_setBindings h hs ho hown
  have hpasses := passes_setBindings h hs ho (Tied.imports_of_opened h (fun _ => id) hs ho)
  rw [hf.all_eq]
  exact { hpasses.trans hf.passes with tied := hf.tied }

/-- An operation on the bindings of a scope that may be gone. -/
theorem advances_update (h : t.WellTied) (s : ScopeId) {f : Bindings → Changes × Bindings}
    (ho : ∀ scope, t.get? s = some scope →
      scope.bindings.Observed (f scope.bindings).2 (f scope.bindings).1 own none)
    (hown : ∀ r, own = some r → ∀ c n, ¬t.Feeds s r c n) :
    t.Advances (t.update s f).2 s (t.update s f).1 := by
  unfold update
  cases hs : t.get? s with
  | none => exact Advances.refl h s
  | some scope => exact advances_follow h hs (ho scope hs) hown

end Change

/-! ### Definitions -/

theorem advances_moveDefinition (h : t.WellTied) (s : ScopeId) (id : SlotId) (p : Position) :
    t.Advances (t.moveDefinition s id p).2 s (t.moveDefinition s id p).1 :=
  advances_update h s (fun _ hs => Bindings.observed_moveDefinition (h.consistent hs) id p) (by simp)

/-- A definition that is added is no importer. -/
theorem advances_addDefinition (h : t.WellTied) {p : Position}
    (hadd : t.addDefinition s name p = some (id, readers, t')) :
    t.Advances t' s readers ∧ t'.LentSlot s id := by
  obtain ⟨scope, hs, heq⟩ := Option.map_eq_some_iff.mp hadd
  simp only [Prod.mk.injEq] at heq
  obtain ⟨rfl, heq⟩ := heq
  have hconsistent := h.consistent hs
  have ho := Bindings.observed_addDefinition hconsistent name p
  obtain ⟨c, opened, -, hadded, -⟩ := Bindings.addDefinition_spec hconsistent name p
  obtain ⟨l₁, before, l₂, hins, -⟩ := hadded.insertion
  have hadvances := advances_follow h hs ho (by simp)
  obtain ⟨more, hf⟩ := followed_setBindings h hs ho (by simp)
  rw [heq] at hadvances hf
  have hnew : (t.setBindings s (scope.bindings.addDefinition name p).2.2).LentSlot s
      (scope.bindings.addDefinition name p).1 := by
    have hself : (t.setBindings s (scope.bindings.addDefinition name p).2.2).get? s =
        some { scope with bindings := (scope.bindings.addDefinition name p).2.2 } :=
      get?_modify_self _ hs
    refine ⟨⟨h.id_lt hs, fun new hnew => ?_⟩, fun new hnew => ?_⟩
    · rw [hself] at hnew
      cases hnew
      rw [hadded.nextId, hadded.fresh]
      exact Nat.lt_succ_self _
    · rw [hself] at hnew
      cases hnew
      rw [hins.place, if_pos rfl]
      simp
  exact ⟨hadvances, hnew.extend hf.passes.toExtends⟩

/-- Nobody listens to a definition any more. -/
theorem advances_hushDefinition (h : t.WellTied) (s : ScopeId) (id : SlotId) :
    t.Advances (t.modify s fun scope =>
      { scope with definitionListeners := scope.definitionListeners.erase id }) s [] := by
  refine advances_relisten h s (fun scope hs => ?_) s
  have hlt : ∀ {x : ReaderId} {ls : List Listener}, scope.readerListeners[x]? = some ls →
      x < scope.bindings.nextId := h.listened_lt hs
  refine ⟨rfl, hlt, fun _ => rfl, fun hls hmem => ⟨_, hls, hmem⟩, fun hls hmem => ?_⟩
  rw [lookup_erase_eq_some_iff] at hls
  exact ⟨_, hls.2, hmem⟩

theorem advances_removeDefinition (h : t.WellTied) (s : ScopeId) (id : SlotId) :
    t.Advances (t.removeDefinition s id).2 s (t.removeDefinition s id).1 := by
  set u := t.modify s fun scope =>
    { scope with definitionListeners := scope.definitionListeners.erase id } with hu
  have hrelisten : t.Advances u s [] := advances_hushDefinition h s id
  have hupdate : u.Advances (u.update s (·.removeDefinition id)).2 s
      (u.update s (·.removeDefinition id)).1 := by
    have ho : ∀ scope, u.get? s = some scope → scope.bindings.Observed
        (scope.bindings.removeDefinition id).2 (scope.bindings.removeDefinition id).1 none none :=
      fun scope hs => Bindings.observed_removeDefinition (hrelisten.tied.consistent hs) id
    exact advances_update hrelisten.tied s ho (by simp)
  have hboth := hrelisten.trans hupdate
  rwa [List.nil_append] at hboth

/-- A write to a slot that is no importer. -/
theorem advances_write (h : t.WellTied) (hid : t.LentSlot s id) (v : SlotValue) :
    t.Advances (t.write s id v).2.2 s (t.write s id v).2.1 := by
  unfold write
  cases hs : t.get? s with
  | none => exact Advances.refl h s
  | some scope =>
    have hconsistent := h.consistent hs
    have hnot : ∀ n, scope.bindings.importer? n = some id → none = some n :=
      fun n hn => absurd (hconsistent.importer?_ne hn) (hid.not_importer scope hs)
    have ho : scope.bindings.Observed (scope.bindings.setValue id v).2
        (scope.bindings.setValue id v).1 none none := Bindings.observed_setValue hconsistent id v hnot
    obtain ⟨hopened, hclosed⟩ : (scope.bindings.setValue id v).1.opened = [] ∧
        (scope.bindings.setValue id v).1.closed = [] := Bindings.setValue_changes _ _ _
    have htied := h.setBindings hs ho (by simp) (by simp)
    refine { passes_setBindings h hs ho (by simp [hopened]) with
      tied := htied.tighten fun q n _ hl _ => .inl ?_ }
    simp [hopened, hclosed] at hl

/-! ### Readers -/

theorem advances_moveReader (h : t.WellTied) (hr : t.Lent s r) (p : Position) :
    t.Advances (t.moveReader s r p).2 s (t.moveReader s r p).1 := by
  refine advances_update h s
    (fun _ hs => Bindings.observed_moveReader (h.consistent hs) r p) fun x hx => ?_
  cases hx
  exact hr.not_feeds

/-- Nobody listens any more to a reader that feeds no importer. -/
theorem advances_hushReader (h : t.WellTied) (hr : t.Lent s r) :
    t.Advances (t.modify s fun scope =>
      { scope with readerListeners := scope.readerListeners.erase r }) s [] := by
  refine advances_relisten h s (fun scope hs => ?_) s
  refine ⟨rfl, fun hls => ?_, fun hf => ?_, fun hls hmem => ?_, fun hls hmem => ⟨_, hls, hmem⟩⟩
  · rw [lookup_erase_eq_some_iff] at hls
    exact h.listened_lt hs hls.2
  · rw [lookup_erase_of_ne]
    rintro rfl
    exact hr.not_feeds _ _ hf
  · rw [lookup_erase_eq_some_iff] at hls
    exact ⟨_, hls.2, hmem⟩

theorem advances_removeReader (h : t.WellTied) (hr : t.Lent s r) :
    t.Advances (t.removeReader s r).2 s (t.removeReader s r).1 := by
  set u := t.modify s fun scope =>
    { scope with readerListeners := scope.readerListeners.erase r } with hu
  have hrelisten : t.Advances u s [] := advances_hushReader h hr
  have hupdate : u.Advances (u.update s (·.removeReader r)).2 s
      (u.update s (·.removeReader r)).1 := by
    refine advances_update hrelisten.tied s
      (fun _ hs => Bindings.observed_removeReader (hrelisten.tied.consistent hs) r) fun x hx => ?_
    cases hx
    exact (hr.extend hrelisten.toExtends).not_feeds
  have hboth := hrelisten.trans hupdate
  rwa [List.nil_append] at hboth

/-- A reader that was just added feeds no importer. -/
theorem lent_setBindings_addReader (h : t.WellTied) (hs : t.get? s = some scope) (name : String)
    (p : Position) : (t.setBindings s (scope.bindings.addReader name p).2.2).Lent s
      (scope.bindings.addReader name p).1 := by
  have hconsistent := h.consistent hs
  obtain ⟨c, opened, -, hid, -, hnext, -⟩ := Bindings.addReader_spec hconsistent name p
  have hself : (t.setBindings s (scope.bindings.addReader name p).2.2).get? s =
      some { scope with bindings := (scope.bindings.addReader name p).2.2 } := get?_modify_self _ hs
  refine ⟨⟨h.id_lt hs, fun new hnew => ?_⟩, fun c n hf => ?_⟩
  · rw [hself] at hnew
    cases hnew
    rw [hid, hnext]
    exact Nat.lt_succ_self _
  · have hfresh := Bindings.nextId_le_addReader hconsistent name p
    exact Tied.not_feeds_of_le h hs hfresh (feeds_setBindings_iff.mp hf)

/-- A reader that is added feeds no importer. Nobody has to be told, because if its name comes into
use with it, it is the only reader of the name. -/
theorem advances_addReader (h : t.WellTied) {p : Position}
    (hadd : t.addReader s name p = some (r, readers, t')) :
    t.Advances t' s [] ∧ t'.Lent s r := by
  obtain ⟨scope, hs, heq⟩ := Option.map_eq_some_iff.mp hadd
  simp only [Prod.mk.injEq] at heq
  obtain ⟨rfl, heq⟩ := heq
  have hconsistent := h.consistent hs
  have ho := Bindings.observed_addReader hconsistent name p
  obtain ⟨c, opened, -, -, -, -, hchanges, -⟩ := Bindings.addReader_spec hconsistent name p
  have hfresh := Bindings.nextId_le_addReader hconsistent name p
  have hown : ∀ x, some (scope.bindings.addReader name p).1 = some x → ∀ c n, ¬t.Feeds s x c n := by
    rintro x hx c n
    cases hx
    exact Tied.not_feeds_of_le h hs hfresh
  have hadvances := advances_follow h hs ho hown
  obtain ⟨more, hf⟩ := followed_setBindings h hs ho hown
  rw [heq] at hadvances hf
  have hself : (t.setBindings s (scope.bindings.addReader name p).2.2).get? s =
      some { scope with bindings := (scope.bindings.addReader name p).2.2 } := get?_modify_self _ hs
  have hlent := (lent_setBindings_addReader h hs name p).extend hf.passes.toExtends
  have honly : ∀ x ∈ readers, x = (scope.bindings.addReader name p).1 := by
    intro x hx
    have hall : readers = more := by
      have heq := hf.all_eq
      rwa [hchanges, List.nil_append] at heq
    obtain ⟨n, hn, place, hplace⟩ := hf.named _ hself x (hall ▸ hx)
    by_contra hne
    rw [ho.anchor x (fun heq => hne (Option.some.inj heq).symm)] at hplace
    exact hconsistent.ne_nil_of_anchor? hplace (ho.unused n hn)
  refine ⟨{ hadvances.toExtends with
    told := fun {q x now} hx hnow => ?_
    unsettled := fun {q x} hu => .inl ?_
    tied := hadvances.tied }, hlent⟩
  · obtain ⟨before, hbefore, hsame⟩ := hadvances.told hx hnow
    refine ⟨before, hbefore, .inl (hsame.resolve_right ?_)⟩
    rintro ⟨rfl, hmem⟩
    exact absurd (hx.2 scope hs) (Nat.not_lt.mpr (honly x hmem ▸ hfresh))
  · refine (hadvances.unsettled hu).resolve_right ?_
    rintro ⟨rfl, hx⟩
    obtain ⟨c', n', hlink, -⟩ := hu
    exact hlent.not_feeds c' n' (honly x hx ▸ hlink)

/-! ### Listeners -/

section Listeners

variable {l : Listener}

theorem mem_of_dropListener {listeners : Std.TreeMap Nat (List Listener)} {x y : Nat}
    {ls : List Listener} {m : Listener} (h : (dropListener listeners x l)[y]? = some ls)
    (hm : m ∈ ls) : ∃ ls', listeners[y]? = some ls' ∧ m ∈ ls' := by
  rw [dropListener, lookup_modify] at h
  split at h
  · obtain ⟨ls', hls', rfl⟩ := Option.map_eq_some_iff.mp h
    exact ⟨ls', hls', List.mem_of_mem_filter hm⟩
  · exact ⟨ls, h, hm⟩

theorem mem_of_addListener {listeners : Std.TreeMap Nat (List Listener)} {x y : Nat}
    {ls : List Listener} {m : Listener} (h : (addListener listeners x l)[y]? = some ls)
    (hm : m ∈ ls) : m = l ∨ ∃ ls', listeners[y]? = some ls' ∧ m ∈ ls' := by
  rw [addListener, lookup_insert] at h
  split at h
  · rename_i hxy
    cases h
    rcases List.mem_append.mp hm with hm | hm
    · cases hls : listeners[x]? with
      | none => simp [hls] at hm
      | some ls' =>
        rw [hls, Option.getD_some] at hm
        exact .inr ⟨ls', by rw [← hxy, hls], hm⟩
    · exact .inl (List.mem_singleton.mp hm)
  · exact .inr ⟨ls, h, hm⟩

variable (h : t.WellTied) (hl : ∀ c n, l ≠ .importer c n)
include h hl

theorem advances_listenToReader (hr : t.Lent s r) (u : ScopeId) :
    t.Advances (t.listenToReader s r l) u [] := by
  refine advances_relisten h s (fun scope hs => ?_) u
  refine ⟨rfl, fun hls => ?_, fun hf => ?_, fun hls hmem => ?_, fun hls hmem => ⟨_, hls, hmem⟩⟩
  · rw [addListener, lookup_insert] at hls
    split at hls
    · rename_i hx
      exact hx ▸ hr.given.2 scope hs
    · exact h.listened_lt hs hls
  · rw [addListener, lookup_insert_of_ne]
    rintro rfl
    exact hr.not_feeds _ _ hf
  · exact (mem_of_addListener hls hmem).resolve_left fun heq => hl _ _ heq.symm

theorem advances_listenToDefinition (s : ScopeId) (id : SlotId) (u : ScopeId) :
    t.Advances (t.listenToDefinition s id l) u [] := by
  refine advances_relisten h s (fun scope hs => ?_) u
  have hlt : ∀ {x : ReaderId} {ls : List Listener}, scope.readerListeners[x]? = some ls →
      x < scope.bindings.nextId := h.listened_lt hs
  refine ⟨rfl, hlt, fun _ => rfl, fun hls hmem => ⟨_, hls, hmem⟩, fun hls hmem => ?_⟩
  exact (mem_of_addListener hls hmem).resolve_left fun heq => hl _ _ heq.symm

theorem advances_ignoreReader (s : ScopeId) (r : ReaderId) (u : ScopeId) :
    t.Advances (t.ignoreReader s r l) u [] := by
  refine advances_relisten h s (fun scope hs => ?_) u
  refine ⟨rfl, fun {x ls} hls => ?_, fun {x c n} hf => ?_, mem_of_dropListener,
    fun hls hmem => ⟨_, hls, hmem⟩⟩
  · rw [dropListener, lookup_modify] at hls
    split at hls
    · obtain ⟨ls', hls', -⟩ := Option.map_eq_some_iff.mp hls
      exact h.listened_lt hs hls'
    · exact h.listened_lt hs hls
  · -- an importer stays a listener
    obtain ⟨around, _, haround, -, -, hls⟩ := h.fed hf
    rw [hs] at haround
    cases haround
    rw [dropListener, lookup_modify]
    split
    · rw [hls, Option.map_some, List.filter_cons_of_pos, List.filter_nil]
      simpa using Ne.symm (hl c n)
    · rfl

omit hl in
theorem advances_ignoreDefinition (s : ScopeId) (id : SlotId) (u : ScopeId) :
    t.Advances (t.ignoreDefinition s id l) u [] := by
  refine advances_relisten h s (fun scope hs => ?_) u
  have hlt : ∀ {x : ReaderId} {ls : List Listener}, scope.readerListeners[x]? = some ls →
      x < scope.bindings.nextId := h.listened_lt hs
  exact ⟨rfl, hlt, fun _ => rfl, fun hls hmem => ⟨_, hls, hmem⟩, mem_of_dropListener⟩

end Listeners

/-! ### Importers -/

theorem follow_of_nil {changes : Changes} (hopened : changes.opened = [])
    (hclosed : changes.closed = []) : t.follow s changes = (changes.readers, t) := by
  unfold follow
  simp only [hopened, hclosed, List.foldl_nil]

/-- Telling an importer what its reader observes settles the link. A scope that imports nothing is
never told. -/
theorem advances_setImported (h : t.WellTied) (hs : t.get? s = some scope)
    (hwall : scope.closed = false) (hanc : scope.ancestors ≠ []) {v : SlotValue}
    (hv : ∀ p r w, t.Feeds p r s name → t.readerValue? p r = some w → v.same w) :
    t.Advances (t.setImported s name v).2 s (t.setImported s name v).1 ∧
      ∀ p r, t.Feeds p r s name → ¬(t.setImported s name v).2.Unsettled p r := by
  have hconsistent := h.consistent hs
  obtain ⟨hopened, hclosed⟩ := Bindings.setImported_changes scope.bindings name v
  have heq : t.setImported s name v = ((scope.bindings.setImported name v).1.readers,
      t.setBindings s (scope.bindings.setImported name v).2) := by
    rw [setImported, update, hs]
    exact follow_of_nil hopened hclosed
  rw [heq]
  have ho := Bindings.observed_setImported hconsistent name v
  by_cases hused : scope.bindings.slotsOf name = []
  · -- the name is not in use, and nothing happens
    have hsame : scope.bindings.setImported name v = ({}, scope.bindings) := by
      rw [Bindings.setImported, Bindings.importer?, hused, List.head?_nil]
    have hget : ∀ q, (t.setBindings s scope.bindings).get? q = t.get? q := by
      intro q
      rw [setBindings, get?_modify]
      split
      · rename_i hq
        rw [← hq, hs, Option.map_some]
      · rfl
    have hnext : (t.setBindings s scope.bindings).nextId = t.nextId := rfl
    rw [hsame]
    refine ⟨advances_of_get?_eq h hget hnext s, fun p r hf _ => ?_⟩
    obtain ⟨scope', hs', -, hr⟩ := hf
    rw [hs] at hs'
    cases hs'
    exact ((h.exact id hs).imports_iff.mp ⟨r, hr⟩).2.2 hused
  have hlink := (h.exact (fun hl => hl) hs).imports_iff.mpr ⟨hwall, hanc, hused⟩
  have htied := h.setBindings hs ho (by simp) fun n hn => by
    cases hn
    exact hlink
  have hsettled : ∀ p r, t.Feeds p r s name →
      (t.setBindings s (scope.bindings.setImported name v).2).Settled p r s name := by
    intro p r hf v' w hv' hw
    rw [imported?, setBindings, get?_modify_self _ hs, Option.bind_some] at hv'
    have hne : p ≠ s := Nat.ne_of_lt (Tied.lt_of_feeds h hf)
    rw [readerValue?, setBindings, get?_modify_of_ne _ (Ne.symm hne)] at hw
    exact SlotValue.same_trans (Bindings.imported?_setImported hconsistent name v hv')
      (hv p r w hf hw)
  have hextends : t.Extends (t.setBindings s (scope.bindings.setImported name v).2) :=
    extends_setBindings hs ho
  refine ⟨{ hextends with
    told := fun {p r now} hr hnow => told_setBindings h hs ho hr hnow
    unsettled := fun {p r} hu => ?_
    tied := ?_ }, fun p r hf hu => ?_⟩
  · rcases unsettled_setBindings h hs ho (by simp [hopened]) hu with hu | htold | ⟨n, hn, hf, hnot⟩
    · exact .inl hu
    · exact .inr htold
    · cases hn
      exact absurd (hsettled p r hf) hnot
  · refine htied.tighten fun q n _ hl _ => .inl ?_
    simp [hopened, hclosed] at hl
  · obtain ⟨c, n, hf', hnot⟩ := hu
    obtain ⟨rfl, rfl⟩ := Tied.feeds_inj h hf (feeds_setBindings_iff.mp hf')
    exact hnot (hsettled p r hf)

end ScopeTree

end MathCanvas
