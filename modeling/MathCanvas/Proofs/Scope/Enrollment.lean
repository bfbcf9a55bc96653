import MathCanvas.Proofs.Scope.Sequence

/-!
# What is enrolled in a scope

Somebody can be enrolled in a scope under a name in two roles: with a definition of the name, or
with a reader of it. The readers through which inner scopes import names are nobody's own, and come
and go with the imports. All that is done to the imports leaves those who are enrolled as they are
(`SameRolls`), and every operation on a definition or a reader changes what it is about and nothing
else (`Joins`, `Shifts`, `Quits`).
-/

namespace MathCanvas

/-- What somebody is enrolled with. -/
inductive Role where
  | definition
  | reader
  deriving DecidableEq

namespace Bindings

/-- A reader that is moved keeps its name. -/
theorem anchor?_moveReader {b : Bindings} (hb : b.Consistent) (r x : ReaderId) (y : Position) :
    (b.moveReader r y).2.anchor? x =
      if x = r then (b.anchor? r).map fun a => (a.1, y) else b.anchor? x := by
  cases hr : b.readers[r]? with
  | none =>
    rw [moveReader_of_none hr]
    split
    · rename_i hx
      rw [hx, anchor?, hr, Option.map_none, Option.map_none]
    · rfl
  | some reader =>
    rw [(moveReader_spec hb hr y).1.anchor]
    simp only [anchor?, hr, Option.map_some, Reader.anchor]

end Bindings

namespace ScopeTree

variable {t t' u : ScopeTree} {s p q c : ScopeId} {scope around : Scope} {r x : ReaderId}
  {name n : String} {y : Position} {role : Role}

/-- The name and the position of a reader. -/
def anchor? (t : ScopeTree) (s : ScopeId) (r : ReaderId) : Option (String × Position) :=
  (t.get? s).bind (·.bindings.anchor? r)

/-- A reader of a name that feeds no importer. -/
def Reads (t : ScopeTree) (s : ScopeId) (r : ReaderId) (name : String) (y : Position) : Prop :=
  t.anchor? s r = some (name, y) ∧ ∀ c n, ¬t.Feeds s r c n

/-- A definition or a reader of a name that was made for others than an importer. -/
def Enrolled (t : ScopeTree) (s : ScopeId) (x : Nat) (name : String) (y : Position) : Role → Prop
  | .definition => (x, y) ∈ t.sequence s name
  | .reader => t.Reads s x name y

@[simp] theorem enrolled_definition :
    t.Enrolled s x name y .definition ↔ (x, y) ∈ t.sequence s name := .rfl

@[simp] theorem enrolled_reader : t.Enrolled s x name y .reader ↔ t.Reads s x name y := .rfl

/-- The same definitions and readers are enrolled. -/
structure SameRolls (t t' : ScopeTree) : Prop where
  enrolled : ∀ {s : ScopeId} {x : Nat} {name : String} {y : Position} {k : Role},
    t'.Enrolled s x name y k ↔ t.Enrolled s x name y k

theorem SameRolls.refl (t : ScopeTree) : t.SameRolls t := ⟨.rfl⟩

theorem SameRolls.trans (h : t.SameRolls u) (h' : u.SameRolls t') : t.SameRolls t' :=
  ⟨h'.enrolled.trans h.enrolled⟩

theorem anchor?_of_get? (hs : t.get? s = some scope) (r : ReaderId) :
    t.anchor? s r = scope.bindings.anchor? r := by
  rw [anchor?, hs, Option.bind_some]

theorem anchor?_of_none (hs : t.get? s = none) (r : ReaderId) : t.anchor? s r = none := by
  rw [anchor?, hs, Option.bind_none]

/-- Only a scope that is there has anybody enrolled. -/
theorem Enrolled.get?_ne_none {k : Role} (h : t.Enrolled s x name y k) : t.get? s ≠ none := by
  intro hnone
  cases k with
  | definition =>
    rw [Enrolled, sequence_of_none hnone] at h
    cases h
  | reader =>
    have hanchor := h.1
    rw [anchor?_of_none hnone] at hanchor
    cases hanchor

/-- A definition or reader has one name and one position. -/
theorem Enrolled.unique (h : t.Consistent) (hx : t.Enrolled s x name y role) {y' : Position}
    (hx' : t.Enrolled s x n y' role) : name = n ∧ y = y' := by
  cases role with
  | definition => exact eq_of_mem_sequence h hx hx'
  | reader =>
    have heq := hx.1.symm.trans hx'.1
    simp only [Option.some.injEq, Prod.mk.injEq] at heq
    exact heq

/-! ### The readers of an operation that changes one scope -/

theorem anchor?_modify (t : ScopeTree) (s q : ScopeId) (f : Scope → Scope) (r : ReaderId) :
    (t.modify s f).anchor? q r =
      if s = q then ((t.get? q).map f).bind (·.bindings.anchor? r) else t.anchor? q r := by
  unfold anchor?
  rw [get?_modify]
  split <;> rfl

/-- What does not touch bindings, places and imports touches no reader. -/
theorem reads_modify_same {f : Scope → Scope} (hf : ∀ scope, (f scope).bindings = scope.bindings ∧
    (f scope).ancestors = scope.ancestors ∧ (f scope).imports = scope.imports) :
    (t.modify s f).Reads q x n y ↔ t.Reads q x n y := by
  have hfeeds : ∀ c n, (t.modify s f).Feeds q x c n ↔ t.Feeds q x c n :=
    fun c n => feeds_modify_iff fun scope => (hf scope).2
  have hanchor : (t.modify s f).anchor? q x = t.anchor? q x := by
    rw [anchor?_modify]
    split
    · rw [anchor?]
      cases t.get? q with
      | none => rfl
      | some scope => rw [Option.map_some, Option.bind_some, Option.bind_some, (hf scope).1]
    · rfl
  rw [Reads, Reads, hanchor]
  simp only [hfeeds]

theorem anchor?_setBindings (hs : t.get? s = some scope) (b : Bindings) (q : ScopeId)
    (x : ReaderId) :
    (t.setBindings s b).anchor? q x = if q = s then b.anchor? x else t.anchor? q x := by
  rw [setBindings, anchor?_modify]
  by_cases hq : s = q
  · subst hq
    rw [if_pos rfl, if_pos rfl, hs, Option.map_some, Option.bind_some]
  · rw [if_neg hq, if_neg (Ne.symm hq)]

/-- The bindings of a scope change. -/
theorem reads_setBindings (hs : t.get? s = some scope) (b : Bindings) :
    (t.setBindings s b).Reads q x n y ↔
      (if q = s then b.anchor? x else t.anchor? q x) = some (n, y) ∧
        ∀ c m, ¬t.Feeds q x c m := by
  rw [Reads, anchor?_setBindings hs]
  simp only [feeds_setBindings_iff]

/-! ### Imports that end -/

/-- The scopes around a scope are those around its parent, and the parent. -/
def Chained (t : ScopeTree) : Prop :=
  ∀ {s : ScopeId} {scope around : Scope} {p : ScopeId} {further : List ScopeId},
    t.get? s = some scope → scope.ancestors = p :: further → t.get? p = some around →
    around.ancestors = further

theorem Tied.chained {loose : ScopeId → String → Prop} (h : t.Tied loose) : t.Chained := by
  intro s scope around p further hs hanc hp
  obtain ⟨-, around', hp', hfurther⟩ := h.parent hs hanc
  rw [hp] at hp'
  cases hp'
  exact hfurther

theorem Chained.of_sameShape (h : t.Chained) (hshape : t.SameShape t') : t'.Chained := by
  intro s scope around p further hs hanc hp
  obtain ⟨scope', hs', -, -, hsame⟩ := hshape.exists_of_get? hs
  obtain ⟨around', hp', -, -, hsame'⟩ := hshape.exists_of_get? hp
  rw [← hsame']
  exact h hs' (hsame.trans hanc) hp'

theorem Chained.ne (h : t.Chained) (hs : t.get? s = some scope) {further : List ScopeId}
    (hanc : scope.ancestors = p :: further) : s ≠ p := by
  rintro rfl
  have hself := h hs hanc hs
  rw [hanc] at hself
  exact absurd (congrArg List.length hself) (by simp)

/-- Scopes and the readers of imports may go, but nobody else, and nobody comes. -/
structure Sheds (t t' : ScopeTree) : Prop where
  chained : t'.Chained
  present : ∀ {q : ScopeId}, t'.get? q ≠ none → t.get? q ≠ none
  links : ∀ {p : ScopeId} {r : ReaderId} {c : ScopeId} {n : String}, t'.Feeds p r c n →
    t.Feeds p r c n
  back : ∀ {q : ScopeId} {x : ReaderId} {n : String} {y : Position}, t'.Reads q x n y →
    t.Reads q x n y
  kept : ∀ {q : ScopeId} {x : ReaderId} {n : String} {y : Position}, t'.get? q ≠ none →
    t.Reads q x n y → t'.Reads q x n y

theorem Sheds.refl (h : t.Chained) : t.Sheds t := ⟨h, id, id, id, fun _ => id⟩

theorem Sheds.trans (h : t.Sheds u) (h' : u.Sheds t') : t.Sheds t' where
  chained := h'.chained
  present hq := h.present (h'.present hq)
  links hf := h.links (h'.links hf)
  back hx := h.back (h'.back hx)
  kept hq hx := h'.kept hq (h.kept (h'.present hq) hx)

/-- If no scope goes, the readers are the same. -/
theorem Sheds.reads_iff (h : t.Sheds t') (hshape : t.SameShape t') :
    t'.Reads q x n y ↔ t.Reads q x n y := by
  refine ⟨h.back, fun hx => h.kept ?_ hx⟩
  intro hnone
  exact Enrolled.get?_ne_none (k := .reader) hx ((hshape.get?_eq_none_iff q).mp hnone)

/-- Removing a reader leaves the others. -/
theorem anchor?_removeReader (b : Bindings) (r x : ReaderId) :
    (b.removeReader r).2.anchor? x = if r = x then none else b.anchor? x := by
  have hclose : ∀ (b : Bindings) (name : String), (b.closeName name).1.readers = b.readers := by
    intro b name
    unfold Bindings.closeName
    split
    · split <;> rfl
    · rfl
  unfold Bindings.removeReader
  split
  · simp only
    rw [Bindings.anchor?, hclose]
    change ((b.readers.erase r)[x]?).map Reader.anchor = _
    rw [lookup_erase]
    split <;> rfl
  · rename_i hnone
    split
    · rename_i hrx
      rw [← hrx, Bindings.anchor?, hnone, Option.map_none]
    · rfl

/-- The import of a name is given up. -/
def withoutImport (t : ScopeTree) (s : ScopeId) (name : String) : ScopeTree :=
  t.modify s fun scope => { scope with imports := scope.imports.erase name }

theorem feeds_withoutImport_iff : (t.withoutImport s name).Feeds q x c n ↔
    t.Feeds q x c n ∧ ¬(c = s ∧ n = name) := by
  unfold Feeds withoutImport
  rw [get?_modify]
  by_cases hc : s = c
  · subst hc
    rw [if_pos rfl]
    constructor
    · rintro ⟨scope', hscope', hparent, hx⟩
      obtain ⟨scope, hs, rfl⟩ := Option.map_eq_some_iff.mp hscope'
      rw [lookup_erase_eq_some_iff] at hx
      exact ⟨⟨scope, hs, hparent, hx.2⟩, fun heq => hx.1 heq.2.symm⟩
    · rintro ⟨⟨scope, hs, hparent, hx⟩, hnot⟩
      refine ⟨_, Option.map_eq_some_iff.mpr ⟨scope, hs, rfl⟩, hparent, ?_⟩
      rw [lookup_erase_eq_some_iff]
      exact ⟨fun heq => hnot ⟨rfl, heq.symm⟩, hx⟩
  · rw [if_neg hc]
    exact ⟨fun h => ⟨h, fun heq => hc heq.1.symm⟩, And.left⟩

theorem anchor?_withoutImport : (t.withoutImport s name).anchor? q x = t.anchor? q x := by
  rw [withoutImport, anchor?_modify, anchor?]
  split
  · cases t.get? q <;> rfl
  · rfl

/-- The reader of an import goes with the import. -/
theorem sheds_of_link (h : t.Chained) (hshape : t.SameShape t') (hlink : t.Feeds p r s name)
    (hanchor : ∀ q x, t'.anchor? q x = if q = p ∧ r = x then none else t.anchor? q x)
    (hfeeds : ∀ q x c n, t'.Feeds q x c n ↔ (t.withoutImport s name).Feeds q x c n) :
    t.Sheds t' := by
  simp only [feeds_withoutImport_iff] at hfeeds
  refine ⟨h.of_sameShape hshape, fun hq hnone => hq ((hshape.get?_eq_none_iff _).mpr hnone),
    fun hf => ((hfeeds _ _ _ _).mp hf).1, ?_, ?_⟩
  · rintro q x n y ⟨hx, hnot⟩
    rw [hanchor] at hx
    split at hx
    · cases hx
    · rename_i hother
      refine ⟨hx, fun c m hf => hnot c m ((hfeeds q x c m).mpr ⟨hf, ?_⟩)⟩
      rintro ⟨rfl, rfl⟩
      -- the import has one reader
      obtain ⟨rfl, rfl⟩ := feeds_unique hf hlink
      exact hother ⟨rfl, rfl⟩
  · rintro q x n y - ⟨hx, hnot⟩
    refine ⟨?_, fun c m hf => hnot c m ((hfeeds q x c m).mp hf).1⟩
    rw [hanchor, if_neg, hx]
    rintro ⟨rfl, rfl⟩
    exact hnot s name hlink

theorem feeds_disconnected_iff_without {b : Bindings} :
    (t.disconnected s name p r b).Feeds q x c n ↔ (t.withoutImport s name).Feeds q x c n :=
  feeds_modify_iff fun _ => ⟨rfl, rfl⟩

theorem sheds_disconnected (h : t.Chained) (hlink : t.Feeds p r s name) (hne : s ≠ p)
    (hp : t.get? p = some around) :
    t.Sheds (t.disconnected s name p r (around.bindings.removeReader r).2) := by
  refine sheds_of_link h (sameShape_disconnected t s name p r _) hlink (fun q x => ?_)
    fun _ _ _ _ => feeds_disconnected_iff_without
  rw [disconnected, anchor?_modify, ← withoutImport]
  by_cases hqp : p = q
  · subst hqp
    rw [if_pos rfl, withoutImport, get?_modify_of_ne _ hne, hp, Option.map_some, Option.bind_some,
      anchor?_removeReader, anchor?_of_get? hp]
    simp only [true_and]
  · rw [if_neg hqp, if_neg (fun heq => hqp heq.1.symm), anchor?_withoutImport]

/-- Ending an import. The induction is on the ancestors: the parent may have to give up its own
import. -/
theorem sheds_unlink (name : String) : ∀ (further : List ScopeId) {t : ScopeTree} {s : ScopeId}
    {scope : Scope}, t.Chained → t.get? s = some scope → scope.ancestors = further →
      t.Sheds (t.unlink s name further) ∧ ∀ q x, ¬(t.unlink s name further).Feeds q x s name := by
  intro further
  induction further with
  | nil =>
    intro t s scope h hs hanc
    rw [unlink]
    refine ⟨.refl h, ?_⟩
    rintro q x ⟨scope', hs', hparent, -⟩
    rw [hs] at hs'
    cases hs'
    rw [hanc] at hparent
    cases hparent
  | cons p further ih =>
    intro t s scope h hs hanc
    cases hr : scope.imports[name]? with
    | none =>
      rw [unlink_of_none hs hr]
      refine ⟨.refl h, ?_⟩
      rintro q x ⟨scope', hs', -, hx⟩
      rw [hs] at hs'
      cases hs'
      rw [hr] at hx
      cases hx
    | some r =>
      have hne := h.ne hs hanc
      have hlink : t.Feeds p r s name := ⟨scope, hs, by rw [hanc, List.head?_cons], hr⟩
      have hgone : ∀ q x, ¬(t.withoutImport s name).Feeds q x s name :=
        fun q x hf => (feeds_withoutImport_iff.mp hf).2 ⟨rfl, rfl⟩
      cases hp : t.get? p with
      | none =>
        have heq : t.unlink s name (p :: further) = t.withoutImport s name := by
          rw [unlink, hs, Option.bind_some, hr]
          simp only
          rw [get?_modify_of_ne _ hne, hp]
          rfl
        rw [heq]
        refine ⟨sheds_of_link h (.of_modify fun _ => ⟨rfl, rfl, rfl⟩) hlink (fun q x => ?_)
          fun _ _ _ _ => .rfl, hgone⟩
        rw [anchor?_withoutImport]
        split
        · rename_i hqx
          rw [hqx.1, anchor?_of_none hp]
        · rfl
      | some around =>
        have hfirst := sheds_disconnected h hlink hne hp
        have hgone' : ∀ q x, ¬(t.disconnected s name p r
            (around.bindings.removeReader r).2).Feeds q x s name :=
          fun q x hf => hgone q x (feeds_disconnected_iff_without.mp hf)
        rw [unlink_of_imported hs hr hp hne further rfl]
        split
        · exact ⟨hfirst, hgone'⟩
        · have hself : (t.disconnected s name p r (around.bindings.removeReader r).2).get? p =
              some _ := get?_modify_self _ (by rw [get?_modify_of_ne _ hne, hp])
          have hfurther : around.ancestors = further := h hs hanc hp
          obtain ⟨hrest, -⟩ := ih hfirst.chained hself hfurther
          exact ⟨hfirst.trans hrest, fun q x hf => hgone' q x (hrest.links hf)⟩

theorem sheds_foldl {ancestors : List ScopeId} : ∀ (names : List String) {t : ScopeTree}
    {scope : Scope}, t.Chained → t.get? s = some scope → scope.ancestors = ancestors →
      t.Sheds (names.foldl (fun t name => t.unlink s name ancestors) t) ∧
        ∀ name ∈ names, ∀ q x,
          ¬(names.foldl (fun t name => t.unlink s name ancestors) t).Feeds q x s name := by
  intro names
  induction names with
  | nil => exact fun h _ _ => ⟨.refl h, by simp⟩
  | cons name rest ih =>
    intro t scope h hs hanc
    obtain ⟨hfirst, hgone⟩ := sheds_unlink name ancestors h hs hanc
    obtain ⟨scope', hs', -, -, hanc'⟩ :=
      (sameShape_unlink name ancestors t s).symm.exists_of_get? hs
    obtain ⟨hrest, hgone'⟩ := ih hfirst.chained hs' (hanc'.trans hanc)
    refine ⟨hfirst.trans hrest, fun n hn q x hf => ?_⟩
    rcases List.mem_cons.mp hn with rfl | hn
    · exact hgone q x (hrest.links hf)
    · exact hgone' n hn q x hf

/-- A scope that imports nothing is taken out. -/
theorem sheds_erase (h : t.Chained) (hnone : ∀ p r n, ¬t.Feeds p r s n) :
    t.Sheds { t with scopes := t.scopes.erase s } := by
  set t' : ScopeTree := { t with scopes := t.scopes.erase s } with ht'
  have hget : ∀ q, t'.get? q = if s = q then none else t.get? q := fun q => lookup_erase _ _ _
  have hold : ∀ {q scope}, t'.get? q = some scope → s ≠ q ∧ t.get? q = some scope := by
    intro q scope hq
    rw [hget] at hq
    split at hq
    · cases hq
    · exact ⟨‹_›, hq⟩
  have hfeeds : ∀ q x c n, t'.Feeds q x c n ↔ t.Feeds q x c n := by
    intro q x c n
    refine ⟨fun ⟨scope, hc, hrest⟩ => ⟨scope, (hold hc).2, hrest⟩, fun hf => ?_⟩
    have hne : s ≠ c := fun heq => hnone q x n (heq ▸ hf)
    obtain ⟨scope, hc, hrest⟩ := hf
    exact ⟨scope, by rw [hget, if_neg hne, hc], hrest⟩
  have hanchor : ∀ q x, t'.anchor? q x = if s = q then none else t.anchor? q x := by
    intro q x
    rw [anchor?, hget]
    split <;> rfl
  refine ⟨fun hs hanc hp => h (hold hs).2 hanc (hold hp).2, fun {q} hq hnone => ?_,
    fun hf => (hfeeds _ _ _ _).mp hf, ?_, ?_⟩
  · rw [hget, hnone, ite_self] at hq
    exact hq rfl
  · rintro q x n y ⟨hx, hnot⟩
    rw [hanchor] at hx
    split at hx
    · cases hx
    · exact ⟨hx, fun c m hf => hnot c m ((hfeeds q x c m).mpr hf)⟩
  · rintro q x n y hq ⟨hx, hnot⟩
    refine ⟨?_, fun c m hf => hnot c m ((hfeeds q x c m).mp hf)⟩
    rw [hanchor, if_neg, hx]
    rintro rfl
    exact hq (by rw [hget, if_pos rfl])

/-- A scope goes together with its imports. -/
theorem sheds_remove (h : t.Chained) (s : ScopeId) : t.Sheds (t.remove s) := by
  unfold remove
  cases hs : t.get? s with
  | none =>
    refine sheds_erase h ?_
    rintro p r n ⟨scope, hget, -⟩
    rw [hs] at hget
    cases hget
  | some scope =>
    have hanc : t.ancestors s = scope.ancestors := ancestors_of_get? hs
    obtain ⟨hfold, hgone⟩ := sheds_foldl scope.imports.keys h hs rfl
    simp only [hanc]
    refine hfold.trans (sheds_erase hfold.chained fun p r n hf => ?_)
    obtain ⟨scope', hs', -, hr⟩ := hfold.links hf
    rw [hs] at hs'
    cases hs'
    exact hgone n ((mem_keys_iff_lookup _ _).mpr ⟨r, hr⟩) p r hf

/-- Listeners do not matter. -/
theorem sheds_ignoreReader (h : t.Chained) (s : ScopeId) (r : ReaderId) (l : Listener) :
    t.Sheds (t.ignoreReader s r l) := by
  have hshape : t.SameShape (t.ignoreReader s r l) := sameShape_ignoreReader r l
  have hreads : ∀ {q x n y}, (t.ignoreReader s r l).Reads q x n y ↔ t.Reads q x n y :=
    reads_modify_same fun _ => ⟨rfl, rfl, rfl⟩
  have hfeeds : ∀ {p x c n}, (t.ignoreReader s r l).Feeds p x c n ↔ t.Feeds p x c n :=
    feeds_modify_iff fun _ => ⟨rfl, rfl⟩
  exact ⟨h.of_sameShape hshape, fun hq hnone => hq ((hshape.get?_eq_none_iff _).mpr hnone),
    hfeeds.mp, hreads.mp, fun _ => hreads.mpr⟩

/-! ### Imports that begin -/

/-- Connecting a name makes the new reader one of an import. -/
theorem reads_connected {loose : ScopeId → String → Prop} (h : t.Tied loose)
    (hc : t.Connects s scope name p around r) {b : Bindings}
    (hanchor : ∀ x, b.anchor? x = scope.bindings.anchor? x) :
    (t.connected s name p r b).Reads q x n y ↔ t.Reads q x n y ∧ ¬(q = p ∧ x = r) := by
  have hsame : (t.connected s name p r b).anchor? q x = t.anchor? q x := by
    have hget : ∀ {q scope'}, (t.connected s name p r b).get? q = some scope' ↔ _ :=
      fun {q scope'} => hc.get?_eq_some_iff h
    by_cases hqs : q = s
    · subst hqs
      rw [anchor?_of_get? (hget.mpr (.inl ⟨rfl, rfl⟩)), anchor?_of_get? hc.inner, hanchor]
    by_cases hqp : q = p
    · subst hqp
      rw [anchor?_of_get? (hget.mpr (.inr (.inl ⟨rfl, rfl⟩))), anchor?_of_get? hc.outer]
    · rw [anchor?, anchor?, connected, listenToReader, get?_modify_of_ne _ (Ne.symm hqs),
        get?_modify_of_ne _ (Ne.symm hqp)]
  rw [Reads, Reads, hsame]
  simp only [hc.feeds_iff h]
  constructor
  · rintro ⟨hx, hnot⟩
    exact ⟨⟨hx, fun c m hf => hnot c m (.inl hf)⟩, fun heq => hnot s name (.inr ⟨heq.1, heq.2, rfl, rfl⟩)⟩
  · rintro ⟨⟨hx, hnot⟩, hne⟩
    refine ⟨hx, fun c m hf => ?_⟩
    rcases hf with hf | ⟨hqp, hxr, -, -⟩
    · exact hnot c m hf
    · exact hne ⟨hqp, hxr⟩

/-- A reader that is added was not there before. -/
theorem anchor?_eq_none_of_addReader {loose : ScopeId → String → Prop} (h : t.Tied loose)
    (hp : t.get? p = some around) (name : String) (place : Position) :
    t.anchor? p (around.bindings.addReader name place).1 = none := by
  have hfresh := Bindings.nextId_le_addReader (h.consistent hp) name place
  rw [anchor?_of_get? hp]
  cases ha : around.bindings.anchor? (around.bindings.addReader name place).1 with
  | none => rfl
  | some a => exact absurd (h.reader_lt hp ha) (Nat.not_lt.mpr hfresh)

/-- A reader is added to a scope. -/
theorem reads_addReader {loose : ScopeId → String → Prop} (h : t.Tied loose)
    (hp : t.get? p = some around) {place : Position} {changes : Changes} {b : Bindings}
    (hadd : around.bindings.addReader name place = (r, changes, b)) :
    (t.setBindings p b).Reads q x n y ↔
      t.Reads q x n y ∨ (q = p ∧ x = r) ∧ n = name ∧ y = place := by
  have hconsistent := h.consistent hp
  obtain ⟨c, opened, hopened, -, hanchored, -⟩ := Bindings.addReader_spec hconsistent name place
  have hnone := anchor?_eq_none_of_addReader h hp name place
  have hfree := h.not_feeds_addReader hp hadd r rfl
  rw [hadd] at hanchored hnone
  have hanchor : ∀ x, b.anchor? x = if x = r then some (name, place) else around.bindings.anchor? x := by
    intro x
    rw [hanchored.anchor, Bindings.anchor?, Bindings.anchor?, hopened.readers]
  rw [reads_setBindings hp, Reads]
  by_cases hqp : q = p
  · subst hqp
    rw [if_pos rfl, hanchor]
    by_cases hx : x = r
    · subst hx
      rw [if_pos rfl, hnone]
      simp [hfree, eq_comm]
    · rw [if_neg hx, anchor?_of_get? hp]
      simp [hx]
  · rw [if_neg hqp]
    simp [hqp]

/-- Linking a name makes new readers in the scopes around, all of which feed an importer. The
induction is on the ancestors. -/
theorem reads_link (name : String) : ∀ (further : List ScopeId) {t : ScopeTree} {s : ScopeId}
    {scope : Scope} {loose : ScopeId → String → Prop}, t.Tied loose →
      (∀ q n, loose q n → s ≤ q) → t.get? s = some scope → scope.ancestors = further →
      scope.imports[name]? = none → scope.bindings.imported? name = some .free →
      ∀ {q : ScopeId} {x : ReaderId} {n : String} {y : Position},
        (t.link s name further).2.Reads q x n y ↔ t.Reads q x n y := by
  intro further
  induction further with
  | nil =>
    intro t s scope loose _ _ hs hanc _ _ q x n y
    rw [← hanc, link_of_not_imported hs (.inr hanc)]
  | cons p further ih =>
    intro t s scope loose h hloose hs hanc hnone hfree q x n y
    by_cases hwall : scope.closed = true
    · rw [← hanc, link_of_not_imported hs (.inl hwall)]
    have hwall : scope.closed = false := by simpa using hwall
    obtain ⟨hlt, around, hp, hfurther⟩ := h.parent hs hanc
    have hnot : ∀ n, ¬loose p n := fun n hl => Nat.not_le.mpr hlt (hloose p n hl)
    rcases hadd : around.bindings.addReader name scope.start with ⟨r, changes, b⟩
    have hself : (t.setBindings p b).get? p = some { around with bindings := b } :=
      get?_modify_self _ hp
    set u := if changes.opened.isEmpty then t.setBindings p b
      else ((t.setBindings p b).link p name further).2 with hu
    have hhosted : t.Hosted u s scope name p r loose := by
      refine hosted_link h hnot hp hadd (fun hopened => ?_) hu
      obtain ⟨htied, hloose', hmissing, hfree⟩ := h.opens hloose hlt hp hadd hopened
      exact ⟨_, linked_link name further htied hloose' hself hfurther hmissing hfree⟩
    have hsame : ∀ {q x n y}, u.Reads q x n y ↔ (t.setBindings p b).Reads q x n y := by
      intro q x n y
      obtain ⟨hcases, -⟩ := Bindings.opened_addReader (h.consistent hp) name scope.start
      rw [hadd] at hcases
      rcases hcases with hopened | hopened
      · rw [hu, hopened, List.isEmpty_nil, if_pos rfl]
      · obtain ⟨htied, hloose', hmissing, hfree⟩ := h.opens hloose hlt hp hadd hopened
        rw [hu, hopened, List.isEmpty_cons, if_neg (by simp)]
        exact ih htied hloose' hself hfurther hmissing hfree
    have hancp : t.ancestors p = further := by rw [ancestors_of_get? hp, hfurther]
    have hout : s ∉ p :: t.ancestors p := by
      rw [hancp]
      intro hmem
      exact Nat.lt_irrefl s (h.lt_of_mem_ancestors hs (hanc ▸ hmem))
    obtain ⟨around', hp', hanchor, hunheard⟩ := hhosted.outer
    have hc : u.Connects s scope name p around' r :=
      ⟨by rw [hhosted.frame s hout, hs], by rw [hanc, List.head?_cons], hnone, hp', hanchor, hunheard⟩
    rw [link_of_imported hs hp hwall further hadd hu]
    simp only
    rw [reads_connected hhosted.tied hc fun x =>
      (Bindings.observed_setImported (h.consistent hs) name _).anchor x (by simp), hsame]
    rw [reads_addReader h hp hadd]
    have hnew := anchor?_eq_none_of_addReader h hp name scope.start
    rw [hadd] at hnew
    constructor
    · rintro ⟨hx | ⟨heq, -⟩, hne⟩
      · exact hx
      · exact absurd heq hne
    · refine fun hx => ⟨.inl hx, ?_⟩
      rintro ⟨rfl, rfl⟩
      have hanchor := hx.1
      rw [hnew] at hanchor
      cases hanchor

/-! ### Imports that follow -/

/-- The imports follow a change of bindings: nobody else's readers come or go. -/
theorem reads_follow {changes : Changes} {b : Bindings} {own : Option ReaderId} (h : t.WellTied)
    (hs : t.get? s = some scope) (ho : scope.bindings.Observed b changes own none)
    (hown : ∀ r, own = some r → ∀ c n, ¬t.Feeds s r c n) :
    ((t.setBindings s b).follow s changes).2.Reads q x n y ↔ (t.setBindings s b).Reads q x n y := by
  obtain ⟨htied, hclosed, hopened⟩ := tied_setBindings h hs ho hown
  have hself : (t.setBindings s b).get? s = some { scope with bindings := b } :=
    get?_modify_self _ hs
  have hanc : (t.setBindings s b).ancestors s = scope.ancestors := by rw [ancestors_of_get? hself]
  set v := t.setBindings s b with hv
  set u := changes.closed.foldl (fun t name => t.unlink s name scope.ancestors) v with hu
  obtain ⟨htied', -, hshape, new, hnew, hbindings, hancnew, himports⟩ :=
    unlinked_closed htied hself hclosed hu
  have hshed : u.Reads q x n y ↔ v.Reads q x n y :=
    (sheds_foldl changes.closed htied.chained hself rfl).1.reads_iff hshape
  unfold follow
  simp only [hanc, ← hu]
  rcases hlist : changes.opened with - | ⟨name, rest⟩
  · exact hshed
  · have hrest : rest = [] := by
      have hle := ho.opened_le
      rw [hlist, List.length_cons] at hle
      exact List.eq_nil_of_length_eq_zero (by omega)
    subst hrest
    obtain ⟨hnone, hfree⟩ := hopened name (by simp [hlist])
    have hlink := reads_link name scope.ancestors htied' (fun q n hl => Nat.le_of_eq hl.1.symm) hnew
      hancnew (himports name hnone) (by rw [hbindings, hfree]) (q := q) (x := x) (n := n) (y := y)
    exact hlink.trans hshed

/-- The bindings of a scope change, and the imports follow. -/
theorem reads_update {b : Bindings} {changes : Changes} {own : Option ReaderId} (h : t.WellTied)
    (hs : t.get? s = some scope) (ho : scope.bindings.Observed b changes own none)
    (hown : ∀ r, own = some r → ∀ c n, ¬t.Feeds s r c n) :
    ((t.setBindings s b).follow s changes).2.Reads q x n y ↔
      if q = s ∧ own = some x then b.anchor? x = some (n, y) else t.Reads q x n y := by
  rw [reads_follow h hs ho hown, reads_setBindings hs]
  by_cases hq : q = s
  · subst hq
    rw [if_pos rfl]
    by_cases hx : own = some x
    · rw [if_pos ⟨rfl, hx⟩]
      exact and_iff_left (hown x hx)
    · rw [if_neg (fun heq => hx heq.2), ho.anchor x hx, Reads, anchor?_of_get? hs]
  · rw [if_neg hq, if_neg (fun heq => hq heq.1), Reads]

/-! ### What an operation does to those who are enrolled -/

/-- One more is enrolled. -/
structure Admits (t t' : ScopeTree) (s : ScopeId) (x : Nat) (name : String) (y : Position)
    (role : Role) : Prop where
  fresh : ∀ n z, ¬t.Enrolled s x n z role
  enrolled : ∀ {q : ScopeId} {u : Nat} {n : String} {z : Position} {k : Role},
    t'.Enrolled q u n z k ↔
      t.Enrolled q u n z k ∨ (k = role ∧ q = s ∧ u = x) ∧ n = name ∧ z = y

/-- One moves to a position. A definition that is in this place already stays. -/
structure Shifts (t t' : ScopeTree) (s : ScopeId) (x : Nat) (y : Position) (role : Role) :
    Prop where
  others : ∀ {q : ScopeId} {u : Nat} {n : String} {z : Position} {k : Role},
    ¬(k = role ∧ q = s ∧ u = x) → (t'.Enrolled q u n z k ↔ t.Enrolled q u n z k)
  forth : ∀ {n : String} {old : Position}, t.Enrolled s x n old role → ∃ new,
    t'.Enrolled s x n new role ∧
      (new = y ∨ role = .definition ∧ new = old ∧ old.same y = true)
  back : ∀ {n : String} {new : Position}, t'.Enrolled s x n new role → ∃ old,
    t.Enrolled s x n old role

/-- One leaves. -/
structure Quits (t t' : ScopeTree) (s : ScopeId) (x : Nat) (role : Role) : Prop where
  enrolled : ∀ {q : ScopeId} {u : Nat} {n : String} {z : Position} {k : Role},
    t'.Enrolled q u n z k ↔ t.Enrolled q u n z k ∧ ¬(k = role ∧ q = s ∧ u = x)

theorem Admits.rolls (h : t.Admits u s x name y role) (hu : u.SameRolls t') :
    t.Admits t' s x name y role :=
  ⟨h.fresh, hu.enrolled.trans h.enrolled⟩

/-- The sequences and the readers are all that matters. -/
theorem sameRolls_of (hsequence : ∀ s name, t'.sequence s name = t.sequence s name)
    (hreads : ∀ {s x n y}, t'.Reads s x n y ↔ t.Reads s x n y) : t.SameRolls t' := by
  refine ⟨fun {s x name y role} => ?_⟩
  cases role with
  | definition => rw [Enrolled, Enrolled, hsequence]
  | reader => exact hreads

/-- Listeners do not matter. -/
theorem sameRolls_modify {f : Scope → Scope} (hf : ∀ scope, (f scope).bindings = scope.bindings ∧
    (f scope).ancestors = scope.ancestors ∧ (f scope).imports = scope.imports) :
    t.SameRolls (t.modify s f) := by
  refine sameRolls_of (fun q name => ?_) (reads_modify_same hf)
  unfold sequence
  rw [get?_modify]
  by_cases hq : s = q
  · rw [if_pos hq]
    cases t.get? q with
    | none => rfl
    | some scope =>
      rw [Option.map_some]
      simp only
      rw [(hf scope).1]
  · rw [if_neg hq]

theorem sameRolls_listenToReader (s : ScopeId) (r : ReaderId) (l : Listener) :
    t.SameRolls (t.listenToReader s r l) :=
  sameRolls_modify fun _ => ⟨rfl, rfl, rfl⟩

theorem sameRolls_listenToDefinition (s : ScopeId) (id : SlotId) (l : Listener) :
    t.SameRolls (t.listenToDefinition s id l) :=
  sameRolls_modify fun _ => ⟨rfl, rfl, rfl⟩

theorem sameRolls_ignoreReader (s : ScopeId) (r : ReaderId) (l : Listener) :
    t.SameRolls (t.ignoreReader s r l) :=
  sameRolls_modify fun _ => ⟨rfl, rfl, rfl⟩

theorem sameRolls_ignoreDefinition (s : ScopeId) (id : SlotId) (l : Listener) :
    t.SameRolls (t.ignoreDefinition s id l) :=
  sameRolls_modify fun _ => ⟨rfl, rfl, rfl⟩

/-- The bindings of a scope change, but no definition and no reader does. -/
theorem sameRolls_setBindings (hs : t.get? s = some scope) {b : Bindings}
    (hsequence : scope.bindings.SameSequences b)
    (hanchor : ∀ x, b.anchor? x = scope.bindings.anchor? x) : t.SameRolls (t.setBindings s b) := by
  refine sameRolls_of (fun q name => ?_) fun {q x n y} => ?_
  · rw [sequence_setBindings hs]
    split
    · rename_i hq
      rw [hq, sequence_of_get? hs, hsequence]
    · rfl
  · rw [reads_setBindings hs, Reads]
    by_cases hq : q = s
    · rw [if_pos hq, hanchor, hq, anchor?_of_get? hs]
    · rw [if_neg hq]

section WellTied

variable (h : t.WellTied)
include h

theorem sameRolls_setImported (s : ScopeId) (name : String) (v : SlotValue) :
    t.SameRolls (t.setImported s name v).2 := by
  have hsame := (evolves_setImported indifferent_sameSequences h.allConsistent s name v).sequence_eq
    (sameShape_update t s _)
  refine sameRolls_of hsame fun {q x n y} => ?_
  unfold setImported update
  cases hs : t.get? s with
  | none => rfl
  | some scope =>
    have hconsistent := h.consistent hs
    have hchanges := Bindings.setImported_changes scope.bindings name v
    simp only
    rw [follow_of_nil hchanges.1 hchanges.2]
    exact (sameRolls_setBindings hs (Bindings.sequence_setImported hconsistent name v) fun x =>
      (Bindings.observed_setImported hconsistent name v).anchor x (by simp)).enrolled
        (k := .reader)

theorem sameRolls_write (s : ScopeId) (id : SlotId) (v : SlotValue) :
    t.SameRolls (t.write s id v).2.2 := by
  unfold write
  cases hs : t.get? s with
  | none => exact .refl t
  | some scope =>
    have hconsistent := h.consistent hs
    refine sameRolls_setBindings hs (Bindings.sequence_setValue hconsistent id v) fun x => ?_
    unfold Bindings.setValue
    split
    · split <;> rfl
    · rfl

/-! ### Definitions -/

/-- The bindings of a scope change, but no reader does. -/
theorem reads_update_none {b : Bindings} {changes : Changes} (hs : t.get? s = some scope)
    (ho : scope.bindings.Observed b changes none none) :
    ((t.setBindings s b).follow s changes).2.Reads q x n y ↔ t.Reads q x n y := by
  rw [reads_update h hs ho (by simp), if_neg (by simp)]

theorem admits_addDefinition {id : SlotId} {readers : List ReaderId}
    (hadd : t.addDefinition s name y = some (id, readers, t')) :
    t.Admits t' s id name y .definition := by
  obtain ⟨hjoins, hothers, hfresh⟩ := sequence_addDefinition h.allConsistent hadd
  refine ⟨hfresh, fun {q u n z k} => ?_⟩
  cases k with
  | definition =>
    unfold Enrolled
    by_cases hqn : (q, n) = (s, name)
    · cases hqn
      rw [hjoins.mem_iff]
      simp [or_comm]
    · rw [hothers q n hqn]
      simp only [Prod.mk.injEq, not_and] at hqn
      refine ⟨.inl, fun hx => hx.resolve_right ?_⟩
      rintro ⟨⟨-, rfl, -⟩, rfl, -⟩
      exact hqn rfl rfl
  | reader =>
    obtain ⟨scope, hs, heq⟩ := Option.map_eq_some_iff.mp hadd
    simp only [Prod.mk.injEq] at heq
    have hreads := reads_update_none h hs
      (Bindings.observed_addDefinition (h.consistent hs) name y) (q := q) (x := u) (n := n) (y := z)
    rw [heq.2] at hreads
    simp only [Enrolled, hreads, reduceCtorEq, false_and, or_false]

theorem shifts_moveDefinition (s : ScopeId) (id : SlotId) (y : Position) :
    t.Shifts (t.moveDefinition s id y).2 s id y .definition := by
  have hreads : ∀ {q x n z}, (t.moveDefinition s id y).2.Reads q x n z ↔ t.Reads q x n z := by
    intro q x n z
    unfold moveDefinition update
    cases hs : t.get? s with
    | none => rfl
    | some scope =>
      exact reads_update_none h hs (Bindings.observed_moveDefinition (h.consistent hs) id y)
  by_cases hmem : ∃ n old, (id, old) ∈ t.sequence s n
  · obtain ⟨name, old, hmem⟩ := hmem
    have hconsistent : t.Consistent := h.allConsistent
    by_cases hsame : old.same y = true
    · -- it is there already
      have hrolls : t.SameRolls (t.moveDefinition s id y).2 :=
        sameRolls_of (sequence_moveDefinition_of_same hconsistent hmem hsame) hreads
      refine ⟨fun _ => hrolls.enrolled, fun {n z} hx => ⟨z, hrolls.enrolled.mpr hx, .inr ⟨rfl, rfl, ?_⟩⟩,
        fun {n z} hx => ⟨z, hrolls.enrolled.mp hx⟩⟩
      rwa [(eq_of_mem_sequence hconsistent hx hmem).2]
    · obtain ⟨hjoins, hothers⟩ := sequence_moveDefinition hconsistent hmem (by simpa using hsame)
      refine ⟨fun {q u n z k} hne => ?_, fun {n z} hx => ⟨y, ?_, .inl rfl⟩, fun {n z} hx => ?_⟩
      · cases k with
        | reader => exact hreads
        | definition =>
          unfold Enrolled
          by_cases hqn : (q, n) = (s, name)
          · cases hqn
            have hu : u ≠ id := fun heq => hne ⟨rfl, rfl, heq⟩
            rw [hjoins.mem_iff, List.mem_filter, bne_iff_ne]
            simp [hu]
          · rw [hothers q n hqn]
      · obtain ⟨rfl, -⟩ := eq_of_mem_sequence hconsistent hx hmem
        unfold Enrolled
        rw [hjoins.mem_iff]
        simp
      · unfold Enrolled at hx ⊢
        by_cases hn : n = name
        · exact ⟨old, hn ▸ hmem⟩
        · rw [hothers s n (by simp [hn])] at hx
          exact ⟨z, hx⟩
  · have hsame : ∀ q n, (t.moveDefinition s id y).2.sequence q n = t.sequence q n := by
      intro q n
      unfold moveDefinition update
      cases hs : t.get? s with
      | none => rfl
      | some scope =>
        have hid : ∀ n q, (id, q) ∉ scope.bindings.sequence n :=
          fun n q hx => hmem ⟨n, q, by rw [sequence_of_get? hs]; exact hx⟩
        simp only
        rw [sequence_follow h.allConsistent hs
          (Bindings.observed_moveDefinition (h.consistent hs) id y).consistent,
          Bindings.moveDefinition_of_not_mem (h.consistent hs) hid]
        split
        · rename_i hq
          rw [hq, sequence_of_get? hs]
        · rfl
    have hrolls : t.SameRolls (t.moveDefinition s id y).2 := sameRolls_of hsame hreads
    exact ⟨fun _ => hrolls.enrolled, fun {n old} hx => absurd ⟨n, old, hx⟩ hmem,
      fun {n new} hx => ⟨new, hrolls.enrolled.mp hx⟩⟩

theorem quits_removeDefinition (s : ScopeId) (id : SlotId) :
    t.Quits (t.removeDefinition s id).2 s id .definition := by
  refine ⟨fun {q u n z k} => ?_⟩
  cases k with
  | definition =>
    rw [enrolled_definition, enrolled_definition, sequence_removeDefinition h.allConsistent]
    by_cases hq : q = s <;> simp [hq]
  | reader =>
    simp only [enrolled_reader, reduceCtorEq, false_and, not_false_eq_true, and_true]
    unfold removeDefinition update
    set v := t.modify s fun scope =>
      { scope with definitionListeners := scope.definitionListeners.erase id } with hv
    have hrelisten : t.Advances v s [] := advances_hushDefinition h s id
    have hsame : v.Reads q u n z ↔ t.Reads q u n z := reads_modify_same fun _ => ⟨rfl, rfl, rfl⟩
    cases hs : v.get? s with
    | none => exact hsame
    | some scope =>
      simp only
      rw [reads_update_none hrelisten.tied hs
        (Bindings.observed_removeDefinition (hrelisten.tied.consistent hs) id)]
      exact hsame

/-! ### Readers -/

theorem admits_addReader {readers : List ReaderId}
    (hadd : t.addReader s name y = some (r, readers, t')) : t.Admits t' s r name y .reader := by
  have hsame := (evolves_addReader indifferent_sameSequences h.allConsistent hadd).sequence_eq
    (sameShape_addReader hadd)
  obtain ⟨scope, hs, heq⟩ := Option.map_eq_some_iff.mp hadd
  have ho := Bindings.observed_addReader (h.consistent hs) name y
  have hnone := anchor?_eq_none_of_addReader h hs name y
  rcases hbindings : scope.bindings.addReader name y with ⟨r', changes, b⟩
  rw [hbindings] at heq ho hnone
  simp only [Prod.mk.injEq] at heq ho hnone
  obtain ⟨rfl, heq⟩ := heq
  have hreads : ∀ {q x n z}, t'.Reads q x n z ↔ (t.setBindings s b).Reads q x n z := by
    intro q x n z
    rw [← reads_follow h hs ho (Tied.not_feeds_addReader h hs hbindings), heq]
  refine ⟨fun n z hx => ?_, fun {q u n z k} => ?_⟩
  · have hanchor := hx.1
    rw [hnone] at hanchor
    cases hanchor
  · cases k with
    | definition => simp [hsame]
    | reader =>
      rw [enrolled_reader, enrolled_reader, hreads, reads_addReader h hs hbindings]
      simp

/-- The number of a reader that is added was not given out before. -/
theorem not_given_addReader {made : ReaderId × List ReaderId × ScopeTree}
    (hadd : t.addReader s name y = some made) : ¬t.Given s made.1 := by
  obtain ⟨scope, hs, heq⟩ := Option.map_eq_some_iff.mp hadd
  rintro ⟨-, hlt⟩
  have hle := Bindings.nextId_le_addReader (h.consistent hs) name y
  have hmade := hlt scope hs
  rw [← heq] at hmade
  exact absurd hmade (Nat.not_lt.mpr hle)

/-- A reader that feeds no importer is moved. -/
theorem shifts_moveReader (hr : t.Lent s r) (y : Position) :
    t.Shifts (t.moveReader s r y).2 s r y .reader := by
  have hsame := (evolves_moveReader indifferent_sameSequences h.allConsistent s r y).sequence_eq
    (sameShape_update t s _)
  have hreads : ∀ {q x n z}, (t.moveReader s r y).2.Reads q x n z ↔
      if q = s ∧ x = r then z = y ∧ ∃ old, t.Reads s r n old else t.Reads q x n z := by
    intro q x n z
    unfold moveReader update
    cases hs : t.get? s with
    | none =>
      simp only
      split
      · rename_i heq
        rw [heq.1, heq.2, Reads, anchor?_of_none hs]
        simp [Reads, anchor?_of_none hs]
      · rfl
    | some scope =>
      have hconsistent := h.consistent hs
      simp only
      rw [reads_update h hs (Bindings.observed_moveReader hconsistent r y) ?_]
      · simp only [Option.some.injEq, eq_comm (a := r)]
        split
        · rename_i heq
          rw [heq.2, Bindings.anchor?_moveReader hconsistent, if_pos rfl]
          simp only [Reads, anchor?_of_get? hs, Option.map_eq_some_iff, Prod.mk.injEq, Prod.exists]
          constructor
          · rintro ⟨m, old, hanchor, rfl, rfl⟩
            exact ⟨rfl, old, hanchor, hr.not_feeds⟩
          · rintro ⟨rfl, old, hanchor, -⟩
            exact ⟨n, old, hanchor, rfl, rfl⟩
        · rfl
      · rintro x hx
        cases hx
        exact hr.not_feeds
  refine ⟨fun {q u n z k} hne => ?_, fun {n old} hx => ⟨y, ?_, .inl rfl⟩, fun {n new} hx => ?_⟩
  · cases k with
    | definition => simp [hsame]
    | reader =>
      rw [enrolled_reader, enrolled_reader, hreads, if_neg fun heq => hne ⟨rfl, heq⟩]
  · rw [enrolled_reader, hreads, if_pos ⟨rfl, rfl⟩]
    exact ⟨rfl, old, hx⟩
  · rw [enrolled_reader, hreads, if_pos ⟨rfl, rfl⟩] at hx
    exact hx.2

/-- A reader that feeds no importer is removed. -/
theorem quits_removeReader (hr : t.Lent s r) :
    t.Quits (t.removeReader s r).2 s r .reader := by
  have hsame := (evolves_removeReader indifferent_sameSequences h.allConsistent s r).sequence_eq
    (sameShape_removeReader t s r)
  refine ⟨fun {q u n z k} => ?_⟩
  cases k with
  | definition => simp [hsame]
  | reader =>
    simp only [enrolled_reader, true_and]
    unfold removeReader update
    set v := t.modify s fun scope =>
      { scope with readerListeners := scope.readerListeners.erase r } with hv
    have hrelisten : t.Advances v s [] := advances_hushReader h hr
    have hsame : v.Reads q u n z ↔ t.Reads q u n z := reads_modify_same fun _ => ⟨rfl, rfl, rfl⟩
    cases hs : v.get? s with
    | none =>
      simp only
      rw [hsame]
      refine ⟨fun hx => ⟨hx, ?_⟩, And.left⟩
      rintro ⟨rfl, -⟩
      exact Enrolled.get?_ne_none (k := .reader) (hsame.mpr hx) hs
    | some scope =>
      simp only
      rw [reads_update hrelisten.tied hs
        (Bindings.observed_removeReader (hrelisten.tied.consistent hs) r) ?_]
      · simp only [Option.some.injEq, eq_comm (a := r), hsame]
        split
        · rename_i heq
          simp [anchor?_removeReader, heq]
        · rename_i hne
          simp [hne]
      · rintro x hx
        cases hx
        exact (hr.extend hrelisten.toExtends).not_feeds

/-! ### Scopes -/

/-- Nobody is enrolled in a new scope. -/
theorem sameRolls_child (parent : ScopeId) (label : String) (start : Position) (closed : Bool) :
    t.SameRolls (t.child parent label start closed).2 := by
  have hnew : t.get? t.nextId = none := by
    cases hs : t.get? t.nextId with
    | none => rfl
    | some scope => exact absurd (h.id_lt hs) (Nat.lt_irrefl _)
  refine sameRolls_of (sequence_child hnew parent label start closed) fun {q x n y} => ?_
  have hfeeds : ∀ c m, (t.child parent label start closed).2.Feeds q x c m ↔ t.Feeds q x c m := by
    intro c m
    unfold Feeds
    rw [get?_child]
    split
    · rename_i hc
      rw [← hc, hnew]
      simp [inside]
    · rfl
  have hanchor : (t.child parent label start closed).2.anchor? q x = t.anchor? q x := by
    unfold anchor?
    rw [get?_child]
    split
    · rename_i hq
      rw [← hq, hnew]
      rfl
    · rfl
  rw [Reads, Reads, hanchor]
  simp only [hfeeds]

end WellTied

end ScopeTree

end MathCanvas
