import MathCanvas.Proofs.Scope.Enrollment
import MathCanvas.Proofs.Scope.Listeners

/-!
# Readers keep their listeners

Linking gives listeners to new readers only, and unlinking takes them only from readers that feed an
importer. So whatever is done to a tree of scopes, whoever listens to a reader that was made for
somebody else goes on to do so, and nobody joins (`ScopeTree.Attends`).
-/

namespace MathCanvas

namespace Bindings

theorem nextId_le_openName (b : Bindings) (name : String) :
    b.nextId ≤ (b.openName name).1.nextId := by
  unfold openName
  split
  · exact Nat.le_refl _
  · exact Nat.le_succ _

theorem nextId_closeName (b : Bindings) (name : String) :
    (b.closeName name).1.nextId = b.nextId := by
  unfold closeName
  split
  · split <;> rfl
  · rfl

theorem nextId_removeReader (b : Bindings) (r : ReaderId) :
    (b.removeReader r).2.nextId = b.nextId := by
  unfold removeReader
  split
  · exact nextId_closeName _ _
  · rfl

theorem nextId_setImported (b : Bindings) (name : String) (v : SlotValue) :
    (b.setImported name v).2.nextId = b.nextId := by
  unfold setImported setValue
  split
  · split
    · split <;> rfl
    · rfl
  · rfl

end Bindings

namespace ScopeTree

variable {t t' u : ScopeTree} {s p : ScopeId} {scope around : Scope} {r x : ReaderId}
  {name : String} {l : Listener} {y : Position} {changes : Changes} {readers : List ReaderId}

/-! ### One scope changes -/

theorem listeners_modify {f : Scope → Scope} (hf : ∀ scope, t.get? p = some scope → s = p →
    (f scope).readerListeners[r]? = scope.readerListeners[r]?) :
    (t.modify s f).listeners p r = t.listeners p r := by
  rw [listeners, get?_modify, listeners]
  split
  · rename_i hs
    cases hp : t.get? p with
    | none => rfl
    | some scope => rw [Option.map_some, Option.bind_some, Option.bind_some, hf scope hp hs]
  · rfl

theorem listeners_setBindings (b : Bindings) :
    (t.setBindings s b).listeners p r = t.listeners p r :=
  listeners_modify fun _ _ _ => rfl

theorem listeners_listenToReader (hne : ¬(s = p ∧ x = r)) :
    (t.listenToReader s x l).listeners p r = t.listeners p r :=
  listeners_modify fun _ _ hs => lookup_insert_of_ne _ _ fun hx => hne ⟨hs, hx⟩

theorem listeners_ignoreReader (hne : ¬(s = p ∧ x = r)) :
    (t.ignoreReader s x l).listeners p r = t.listeners p r :=
  listeners_modify fun _ _ hs => by
    rw [dropListener, lookup_modify, if_neg fun hx => hne ⟨hs, hx⟩]

theorem listeners_listenToReader_self (hs : t.get? s ≠ none) :
    (t.listenToReader s r l).listeners s r = t.listeners s r ++ [l] := by
  obtain ⟨scope, hscope⟩ := Option.ne_none_iff_exists'.mp hs
  rw [listenToReader, listeners_of_get? (get?_modify_self _ hscope), addListener,
    lookup_insert_self, Option.getD_some, listeners_of_get? hscope]

theorem listeners_eraseListeners (hne : ¬(s = p ∧ x = r)) :
    (t.modify s fun scope =>
      { scope with readerListeners := scope.readerListeners.erase x }).listeners p r =
        t.listeners p r :=
  listeners_modify fun _ _ hs => lookup_erase_of_ne _ fun hx => hne ⟨hs, hx⟩

theorem Given.modify {f : Scope → Scope} (h : t.Given p r) (hf : ∀ scope, t.get? p = some scope →
    s = p → r < (f scope).bindings.nextId) : (t.modify s f).Given p r := by
  refine ⟨h.1, fun scope' hscope' => ?_⟩
  rw [get?_modify] at hscope'
  split at hscope'
  · rename_i hs
    obtain ⟨scope, hscope, rfl⟩ := Option.map_eq_some_iff.mp hscope'
    exact hf scope hscope hs
  · exact h.2 scope' hscope'

theorem Given.setBindings (h : t.Given p r) (hs : t.get? s = some scope) {b : Bindings}
    (hb : scope.bindings.nextId ≤ b.nextId) : (t.setBindings s b).Given p r :=
  h.modify fun _ _ heq => by
    subst heq
    exact (h.2 scope hs).trans_le hb

/-! ### Imports -/

/-- A name is linked by readers that are new. -/
theorem listeners_link (name : String) (further : List ScopeId) :
    ∀ {t : ScopeTree} {s : ScopeId} {scope : Scope}, t.get? s = some scope →
      scope.ancestors = further → t.Chained → t.Given p r →
      (t.link s name further).2.listeners p r = t.listeners p r ∧
        (t.link s name further).2.Given p r := by
  induction further with
  | nil => exact fun _ _ _ hr => ⟨rfl, hr⟩
  | cons parent further ih =>
    intro t s scope hs hanc hchained hr
    cases hp : t.get? parent with
    | none =>
      rw [link, hs, hp]
      exact ⟨rfl, hr⟩
    | some around =>
      cases hwall : scope.closed with
      | true =>
        rw [← hanc, link_of_not_imported hs (.inl hwall)]
        exact ⟨rfl, hr⟩
      | false =>
        rcases hadd : around.bindings.addReader name scope.start with ⟨new, changes, b⟩
        obtain ⟨hfresh, hnext⟩ :
            around.bindings.nextId ≤ new ∧ around.bindings.nextId ≤ b.nextId := by
          have hopen := around.bindings.nextId_le_openName name
          rw [Bindings.addReader, Prod.mk.injEq, Prod.mk.injEq] at hadd
          obtain ⟨rfl, -, rfl⟩ := hadd
          exact ⟨hopen, hopen.trans (Nat.le_succ _)⟩
        set u := if changes.opened.isEmpty then t.setBindings parent b
          else ((t.setBindings parent b).link parent name further).2 with hu
        have hset : (t.setBindings parent b).Given p r := hr.setBindings hp hnext
        obtain ⟨hsame, hgiven⟩ : u.listeners p r = t.listeners p r ∧ u.Given p r := by
          rw [hu]
          split
          · exact ⟨listeners_setBindings b, hset⟩
          · have hself : (t.setBindings parent b).get? parent =
                some { around with bindings := b } := get?_modify_self _ hp
            have hfurther : around.ancestors = further := hchained hs hanc hp
            obtain ⟨hsame, hgiven⟩ := ih hself hfurther
              (hchained.of_sameShape (sameShape_setBindings b)) hset
            exact ⟨hsame.trans (listeners_setBindings b), hgiven⟩
        have hother : ¬(parent = p ∧ new = r) := by
          rintro ⟨rfl, rfl⟩
          exact absurd (hr.2 around hp) (Nat.not_lt.mpr hfresh)
        have hlistened : (u.listenToReader parent new (.importer s name)).Given p r :=
          hgiven.modify fun scope' hscope' _ => hgiven.2 scope' hscope'
        rw [link_of_imported hs hp hwall further hadd hu]
        refine ⟨?_, hlistened.modify fun _ _ heq => ?_⟩
        · have hlisten := listeners_listenToReader (t := u) (l := .importer s name) hother
          refine Eq.trans ?_ (hlisten.trans hsame)
          exact listeners_modify fun _ _ _ => rfl
        subst heq
        show r < (scope.bindings.setImported name _).2.nextId
        rw [Bindings.nextId_setImported]
        exact hr.2 scope hs

/-- A name is unlinked by taking away a reader that feeds an importer. -/
theorem listeners_unlink (name : String) (further : List ScopeId) :
    ∀ {t : ScopeTree} {s : ScopeId} {scope : Scope}, t.get? s = some scope →
      scope.ancestors = further → t.Chained → t.Lent p r →
      (t.unlink s name further).listeners p r = t.listeners p r ∧
        (t.unlink s name further).Given p r := by
  induction further with
  | nil => exact fun _ _ _ hr => ⟨rfl, hr.given⟩
  | cons parent further ih =>
    intro t s scope hs hanc hchained hr
    have hne := hchained.ne hs hanc
    have herased : (t.modify s fun scope =>
        { scope with imports := scope.imports.erase name }).Given p r :=
      hr.given.modify fun scope hscope _ => hr.given.2 scope hscope
    cases hx : scope.imports[name]? with
    | none =>
      rw [unlink_of_none hs hx]
      exact ⟨rfl, hr.given⟩
    | some x =>
      have hlink : t.Feeds parent x s name := ⟨scope, hs, by rw [hanc, List.head?_cons], hx⟩
      have hother : ¬(parent = p ∧ x = r) := by
        rintro ⟨rfl, rfl⟩
        exact hr.not_feeds s name hlink
      cases hp : t.get? parent with
      | none =>
        rw [unlink, hs, Option.bind_some, hx]
        simp only
        rw [get?_modify_of_ne _ hne, hp]
        exact ⟨listeners_modify fun _ _ _ => rfl, herased⟩
      | some around =>
        rw [unlink_of_imported hs hx hp hne further rfl]
        set u := t.disconnected s name parent x (around.bindings.removeReader x).2 with hu
        have hsheds : t.Sheds u := sheds_disconnected hchained hlink hne hp
        have hsame : u.listeners p r = t.listeners p r :=
          (listeners_modify fun _ _ heq => lookup_erase_of_ne _ fun hx => hother ⟨heq, hx⟩).trans
            (listeners_modify fun _ _ _ => rfl)
        have hgiven : u.Given p r := herased.modify fun _ _ heq => by
          subst heq
          show r < (around.bindings.removeReader x).2.nextId
          rw [Bindings.nextId_removeReader]
          exact hr.given.2 around hp
        split
        · exact ⟨hsame, hgiven⟩
        · have hself : u.get? parent = some _ :=
            get?_modify_self _ (by rw [get?_modify_of_ne _ hne, hp])
          have hfurther : around.ancestors = further := hchained hs hanc hp
          obtain ⟨hrest, hlast⟩ := ih hself hfurther hsheds.chained
            ⟨hgiven, fun c n hf => hr.not_feeds c n (hsheds.links hf)⟩
          exact ⟨hrest.trans hsame, hlast⟩

theorem listeners_unlinkAll {ancestors : List ScopeId} (names : List String) :
    ∀ {t : ScopeTree} {scope : Scope}, t.get? s = some scope → scope.ancestors = ancestors →
      t.Chained → t.Lent p r →
      (names.foldl (fun t name => t.unlink s name ancestors) t).listeners p r = t.listeners p r ∧
        (names.foldl (fun t name => t.unlink s name ancestors) t).Given p r := by
  induction names with
  | nil => exact fun _ _ _ hr => ⟨rfl, hr.given⟩
  | cons name rest ih =>
    intro t scope hs hanc hchained hr
    obtain ⟨hsame, hgiven⟩ := listeners_unlink name ancestors hs hanc hchained hr
    obtain ⟨hsheds, -⟩ := sheds_unlink name ancestors hchained hs hanc
    obtain ⟨scope', hs', -, -, hanc'⟩ :=
      (sameShape_unlink name ancestors t s).symm.exists_of_get? hs
    obtain ⟨hrest, hlast⟩ := ih hs' (hanc'.trans hanc) hsheds.chained
      ⟨hgiven, fun c n hf => hr.not_feeds c n (hsheds.links hf)⟩
    exact ⟨hrest.trans hsame, hlast⟩

theorem listeners_linkAll {ancestors : List ScopeId} (names : List String) :
    ∀ (readers : List ReaderId) {t : ScopeTree} {scope : Scope}, t.get? s = some scope →
      scope.ancestors = ancestors → t.Chained → t.Given p r →
      (names.foldl (fun linked name => (linked.1 ++ (linked.2.link s name ancestors).1,
        (linked.2.link s name ancestors).2)) (readers, t)).2.listeners p r = t.listeners p r := by
  induction names with
  | nil => exact fun _ _ _ _ _ _ _ => rfl
  | cons name rest ih =>
    intro readers t scope hs hanc hchained hr
    obtain ⟨hsame, hgiven⟩ := listeners_link name ancestors hs hanc hchained hr
    have hshape := sameShape_link name ancestors t s
    obtain ⟨scope', hs', -, -, hanc'⟩ := hshape.symm.exists_of_get? hs
    exact (ih _ hs' (hanc'.trans hanc) (hchained.of_sameShape hshape) hgiven).trans hsame

theorem listeners_follow (hs : t.get? s = some scope) (hchained : t.Chained) (hr : t.Lent p r)
    (changes : Changes) : (t.follow s changes).2.listeners p r = t.listeners p r := by
  have hanc : t.ancestors s = scope.ancestors := ancestors_of_get? hs
  obtain ⟨hsame, hgiven⟩ := listeners_unlinkAll changes.closed hs rfl hchained hr
  obtain ⟨hsheds, -⟩ := sheds_foldl changes.closed hchained hs rfl
  have hshape : t.SameShape
      (changes.closed.foldl (fun t name => t.unlink s name scope.ancestors) t) :=
    sameShape_foldl (fun t name => sameShape_unlink name _ t s) changes.closed t
  obtain ⟨scope', hs', -, -, hanc'⟩ := hshape.symm.exists_of_get? hs
  unfold follow
  rw [hanc]
  have hlinked := listeners_linkAll changes.opened changes.readers hs' hanc' hsheds.chained hgiven
  exact hlinked.trans hsame

/-- When a scope goes, the readers in the others keep their listeners. -/
theorem listeners_remove (h : t.Chained) (hr : t.Lent p r) (hne : s ≠ p) :
    (t.remove s).listeners p r = t.listeners p r ∧ (t.remove s).Lent p r := by
  have herase : ∀ u : ScopeTree, ({ u with scopes := u.scopes.erase s } : ScopeTree).get? p =
      u.get? p := fun u => lookup_erase_of_ne _ hne
  have hnot : ∀ c n, ¬(t.remove s).Feeds p r c n := fun c n hf =>
    hr.not_feeds c n ((sheds_remove h s).links hf)
  unfold remove at hnot ⊢
  rw [listeners, herase, ← listeners]
  cases hs : t.get? s with
  | none =>
    rw [hs] at hnot
    exact ⟨rfl, ⟨hr.given.1, fun scope hp => hr.given.2 scope ((herase t).symm.trans hp)⟩, hnot⟩
  | some scope =>
    rw [hs] at hnot
    rw [ancestors_of_get? hs] at hnot ⊢
    obtain ⟨hsame, hgiven⟩ := listeners_unlinkAll scope.imports.keys hs rfl h hr
    exact ⟨hsame, ⟨hgiven.1, fun scope' hp => hgiven.2 scope' ((herase _).symm.trans hp)⟩, hnot⟩

theorem listeners_removeAll {kept : List ScopeId} (hp : p ∈ kept) (ids : List ScopeId) :
    ∀ {t : ScopeTree}, t.Chained → t.Lent p r →
      (ids.foldl (fun t s => if kept.contains s then t else t.remove s) t).listeners p r =
        t.listeners p r := by
  induction ids with
  | nil => exact fun _ _ => rfl
  | cons s rest ih =>
    intro t h hr
    rw [List.foldl_cons]
    split
    · exact ih h hr
    · rename_i hgoes
      have hne : s ≠ p := by
        rintro rfl
        exact hgoes (List.contains_iff_mem.mpr hp)
      obtain ⟨hsame, hlent⟩ := listeners_remove h hr hne
      exact (ih (sheds_remove h s).chained hlent).trans hsame

/-- Whoever is not taken from a reader goes on to listen. -/
theorem mem_listeners_ignoreReader {m : Listener} (hne : l ≠ m) (hl : l ∈ t.listeners p r) :
    l ∈ (t.ignoreReader s x m).listeners p r := by
  rw [listeners, ignoreReader, get?_modify]
  split
  · cases hp : t.get? p with
    | none => simp [listeners, hp] at hl
    | some scope =>
      rw [listeners_of_get? hp] at hl
      exact mem_dropListener hne hl
  · exact hl

/-! ### Operations -/

/-- Whoever listens to a reader that was made for others than an importer goes on to do so, and
nobody joins. -/
structure Attends (t t' : ScopeTree) : Prop where
  listeners : ∀ {p : ScopeId} {r : ReaderId}, t.Lent p r → t'.listeners p r = t.listeners p r

theorem Attends.refl (t : ScopeTree) : t.Attends t := ⟨fun _ => rfl⟩

section WellTied

variable (h : t.WellTied)
include h

/-- The bindings of a scope change, and the imports follow. -/
theorem attends_follow (hs : t.get? s = some scope) {b : Bindings}
    (hb : scope.bindings.nextId ≤ b.nextId) (changes : Changes) :
    t.Attends ((t.setBindings s b).follow s changes).2 where
  listeners hr := by
    have hself : (t.setBindings s b).get? s = some { scope with bindings := b } :=
      get?_modify_self _ hs
    have hlent : (t.setBindings s b).Lent _ _ := ⟨hr.given.setBindings hs hb,
      fun c n hf => hr.not_feeds c n (feeds_setBindings_iff.mp hf)⟩
    rw [listeners_follow hself (Chained.of_sameShape h.chained (sameShape_setBindings b)) hlent,
      listeners_setBindings]

theorem attends_update (s : ScopeId) {f : Bindings → Changes × Bindings}
    (hf : ∀ scope, t.get? s = some scope →
      scope.bindings.nextId ≤ (f scope.bindings).2.nextId) : t.Attends (t.update s f).2 := by
  unfold update
  cases hs : t.get? s with
  | none => exact .refl t
  | some scope => exact attends_follow h hs (hf scope hs) _

omit h in
theorem attends_child (parent : ScopeId) (name : String) (start : Position) (closed : Bool) :
    t.Attends (t.child parent name start closed).2 where
  listeners {p r} hr := by
    have hne : t.nextId ≠ p := fun heq => absurd hr.given.1 (heq ▸ Nat.lt_irrefl _)
    rw [listeners, get?_child, if_neg hne, listeners]

theorem attends_moveDefinition (s : ScopeId) (id : SlotId) (y : Position) :
    t.Attends (t.moveDefinition s id y).2 :=
  attends_update h s fun _ hs => (Bindings.observed_moveDefinition (h.consistent hs) id y).nextId_le

theorem attends_moveReader (s : ScopeId) (x : ReaderId) (y : Position) :
    t.Attends (t.moveReader s x y).2 :=
  attends_update h s fun _ hs => (Bindings.observed_moveReader (h.consistent hs) x y).nextId_le

theorem attends_setImported (s : ScopeId) (name : String) (v : SlotValue) :
    t.Attends (t.setImported s name v).2 :=
  attends_update h s fun _ hs => (Bindings.observed_setImported (h.consistent hs) name v).nextId_le

theorem attends_removeDefinition (s : ScopeId) (id : SlotId) :
    t.Attends (t.removeDefinition s id).2 where
  listeners hr := by
    have hhush := advances_hushDefinition h s id
    have hupdate := attends_update hhush.tied s (f := (·.removeDefinition id)) fun _ hs =>
      (Bindings.observed_removeDefinition (hhush.tied.consistent hs) id).nextId_le
    exact (hupdate.listeners (hr.extend hhush.toExtends)).trans (listeners_modify fun _ _ _ => rfl)

/-- When a reader goes, the others keep their listeners. -/
theorem listeners_removeReader (hx : t.Lent s x) (hr : t.Lent p r) (hne : ¬(s = p ∧ x = r)) :
    (t.removeReader s x).2.listeners p r = t.listeners p r := by
  have hhush := advances_hushReader h hx
  have hupdate := attends_update hhush.tied s (f := (·.removeReader x)) fun _ hs =>
    (Bindings.observed_removeReader (hhush.tied.consistent hs) x).nextId_le
  exact (hupdate.listeners (hr.extend hhush.toExtends)).trans (listeners_eraseListeners hne)

theorem attends_addDefinition {id : SlotId}
    (hadd : t.addDefinition s name y = some (id, readers, t')) : t.Attends t' := by
  obtain ⟨scope, hs, heq⟩ := Option.map_eq_some_iff.mp hadd
  simp only [Prod.mk.injEq] at heq
  have hfollow := attends_follow h hs
    (Bindings.observed_addDefinition (h.consistent hs) name y).nextId_le
    (scope.bindings.addDefinition name y).2.1
  rwa [heq.2] at hfollow

theorem attends_addReader (hadd : t.addReader s name y = some (r, readers, t')) :
    t.Attends t' := by
  obtain ⟨scope, hs, heq⟩ := Option.map_eq_some_iff.mp hadd
  simp only [Prod.mk.injEq] at heq
  have hfollow := attends_follow h hs
    (Bindings.observed_addReader (h.consistent hs) name y).nextId_le
    (scope.bindings.addReader name y).2.1
  rwa [heq.2] at hfollow

/-- Nobody listens to a reader that is new. -/
theorem listeners_addReader (hadd : t.addReader s name y = some (r, readers, t')) :
    t'.listeners s r = [] := by
  obtain ⟨scope, hs, heq⟩ := Option.map_eq_some_iff.mp hadd
  simp only [Prod.mk.injEq] at heq
  obtain ⟨rfl, heq⟩ := heq
  obtain ⟨c, opened, ho, hr, -, hnext, -⟩ :=
    Bindings.addReader_spec (h.consistent hs) name y
  have hfresh : scope.bindings.nextId ≤ (scope.bindings.addReader name y).1 := by
    rw [hr, ho.nextId]
    split <;> omega
  have hself : (t.setBindings s (scope.bindings.addReader name y).2.2).get? s =
      some { scope with bindings := (scope.bindings.addReader name y).2.2 } := get?_modify_self _ hs
  have hlent : (t.setBindings s (scope.bindings.addReader name y).2.2).Lent s
      (scope.bindings.addReader name y).1 := by
    refine ⟨⟨h.id_lt hs, fun scope' hs' => ?_⟩, fun c n hf => ?_⟩
    · cases hself.symm.trans hs'
      show (scope.bindings.addReader name y).1 < (scope.bindings.addReader name y).2.2.nextId
      rw [hr, hnext]
      exact Nat.lt_succ_self _
    · exact Tied.not_feeds_of_le h hs hfresh (feeds_setBindings_iff.mp hf)
  have hfollow := listeners_follow hself
    (Chained.of_sameShape h.chained (sameShape_setBindings _)) hlent
    (scope.bindings.addReader name y).2.1
  rw [heq] at hfollow
  rw [hfollow, listeners_setBindings, listeners_of_get? hs]
  cases hls : scope.readerListeners[(scope.bindings.addReader name y).1]? with
  | none => rfl
  | some ls => exact absurd (h.listened_lt hs hls) (Nat.not_lt.mpr hfresh)

omit h in
theorem attends_write (s : ScopeId) (id : SlotId) (v : SlotValue) :
    t.Attends (t.write s id v).2.2 := by
  unfold write
  split
  · exact ⟨fun _ => listeners_setBindings _⟩
  · exact .refl t

/-- Nobody listens to a reader whose number was not given out yet. -/
theorem given_of_listener (hl : l ∈ t.listeners p r) : t.Given p r := by
  cases hp : t.get? p with
  | none => simp [listeners, hp] at hl
  | some scope =>
    rw [listeners_of_get? hp] at hl
    cases hls : scope.readerListeners[r]? with
    | none => simp [hls] at hl
    | some ls =>
      refine ⟨h.id_lt hp, fun scope' hs' => ?_⟩
      cases hp.symm.trans hs'
      exact h.listened_lt hp hls

/-- A reader to which an input listens was not made for an importer. -/
theorem lent_of_input {c : CellId} (hl : .input c name ∈ t.listeners p r) : t.Lent p r := by
  refine ⟨given_of_listener h hl, fun c' n hf => ?_⟩
  -- the importer would be the only one who listens
  obtain ⟨around, inner, haround, -, -, hlisten⟩ := h.fed hf
  rw [listeners_of_get? haround] at hl
  simp [hlisten] at hl

end WellTied

end ScopeTree

end MathCanvas
