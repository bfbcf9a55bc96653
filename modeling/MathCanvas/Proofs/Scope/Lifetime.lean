import MathCanvas.Proofs.Scope.Operations

/-!
# Scopes come and go

A new scope has nothing in it. A scope that is removed, once no scope is left in it, first gives up
its imports, so that no reader in the parent feeds it any more (`recedes_remove`).
-/

namespace MathCanvas

namespace ScopeTree

variable {t t' : ScopeTree} {s p q c : ScopeId} {scope scope' around : Scope} {r : ReaderId}
  {name n : String}

/-! ### A new scope -/

/-- The scope that is made inside another one. -/
def inside (t : ScopeTree) (parent : ScopeId) (name : String) (start : Position) (closed : Bool) :
    Scope where
  name := name
  closed := closed
  start := start
  ancestors := match t.get? parent with
    | some scope => parent :: scope.ancestors
    | none => []

theorem get?_child (t : ScopeTree) (parent : ScopeId) (name : String) (start : Position)
    (closed : Bool) (q : ScopeId) :
    (t.child parent name start closed).2.get? q =
      if t.nextId = q then some (t.inside parent name start closed) else t.get? q :=
  lookup_insert _ _ _ _

/-- A new scope is inside one that is there, or inside none. -/
theorem ancestors_inside {start : Position} {closed : Bool} {parent : ScopeId}
    {further : List ScopeId} (h : (t.inside parent name start closed).ancestors = p :: further) :
    ∃ around, t.get? p = some around ∧ around.ancestors = further := by
  unfold inside at h
  cases hp : t.get? parent with
  | none => simp [hp] at h
  | some scope =>
    simp only [hp, List.cons.injEq] at h
    exact ⟨scope, by rw [← h.1, hp], h.2⟩

theorem exact_inside (t : ScopeTree) (parent : ScopeId) (name : String) (start : Position)
    (closed : Bool) (n : String) : (t.inside parent name start closed).Exact n :=
  exact_of_unused (by simp [inside, Bindings.slotsOf]) (by simp [inside])

theorem advances_child (h : t.WellTied) (parent : ScopeId) (name : String) (start : Position)
    (closed : Bool) (u : ScopeId) : t.Advances (t.child parent name start closed).2 u [] := by
  set t' := (t.child parent name start closed).2 with ht'
  set new := t.inside parent name start closed with hnew
  have hget : ∀ q, t'.get? q = if t.nextId = q then some new else t.get? q :=
    get?_child t parent name start closed
  have hold : ∀ {q scope}, t.get? q = some scope → t'.get? q = some scope := by
    intro q scope hq
    rw [hget, if_neg, hq]
    exact (Nat.ne_of_lt (h.id_lt hq)).symm
  have hcases : ∀ {q scope'}, t'.get? q = some scope' →
      q = t.nextId ∧ scope' = new ∨ t.get? q = some scope' := by
    intro q scope' hq
    rw [hget] at hq
    split at hq
    · rename_i hnext
      exact .inl ⟨hnext.symm, (Option.some.inj hq).symm⟩
    · exact .inr hq
  have hfeeds : ∀ {p r c n}, t'.Feeds p r c n ↔ t.Feeds p r c n := by
    intro p r c n
    constructor
    · rintro ⟨scope, hs, hp, hr⟩
      rcases hcases hs with ⟨-, rfl⟩ | hs
      · simp [hnew, inside] at hr
      · exact ⟨scope, hs, hp, hr⟩
    · rintro ⟨scope, hs, hp, hr⟩
      exact ⟨scope, hold hs, hp, hr⟩
  refine ⟨⟨⟨Nat.le_succ _, fun {q scope'} hq hlt => ?_, fun _ hf => hfeeds.mp hf⟩,
    fun {p r now} hr hnow => ⟨now, ?_, .inl now.same_refl⟩, fun {p r} hu => .inl ?_⟩, fun {q scope'} hq => ?_, fun {q scope' p further} hq hanc => ?_,
    fun {q scope'} hq => ?_, fun {q scope' r ls} hq hls => ?_, fun {q scope' n} hq hanc => ?_,
    fun {p r q n} hf => ?_, fun {p around r ls q n} hp hls hmem => ?_,
    fun {q scope' id ls c n} hq hls => ?_, fun {q scope' n} hl hq => ?_⟩
  · rcases hcases hq with ⟨rfl, -⟩ | hq
    · exact absurd hlt (Nat.lt_irrefl _)
    · exact ⟨scope', hq, .refl scope'⟩
  · obtain ⟨around, hp, hnow⟩ := Option.bind_eq_some_iff.mp hnow
    rcases hcases hp with ⟨rfl, -⟩ | hp
    · exact absurd hr.1 (Nat.lt_irrefl _)
    · rw [readerValue?, hp, Option.bind_some, hnow]
  · obtain ⟨c, n, hf, hnot⟩ := hu
    have hf := hfeeds.mp hf
    obtain ⟨around, scope, haround, hscope, -⟩ := Tied.fed h hf
    refine ⟨c, n, hf, fun hsettled => hnot fun v w hv hw => ?_⟩
    rw [imported?, hold hscope, Option.bind_some] at hv
    rw [readerValue?, hold haround, Option.bind_some] at hw
    refine hsettled v w ?_ ?_
    · rw [imported?, hscope, Option.bind_some, hv]
    · rw [readerValue?, haround, Option.bind_some, hw]
  · rcases hcases hq with ⟨rfl, -⟩ | hq
    · exact Nat.lt_succ_self _
    · exact Nat.lt_succ_of_lt (h.id_lt hq)
  · rcases hcases hq with ⟨rfl, rfl⟩ | hq
    · obtain ⟨around, haround, hfurther⟩ := ancestors_inside hanc
      exact ⟨h.id_lt haround, around, hold haround, hfurther⟩
    · obtain ⟨hlt, around, haround, hfurther⟩ := h.parent hq hanc
      exact ⟨hlt, around, hold haround, hfurther⟩
  · rcases hcases hq with ⟨rfl, rfl⟩ | hq
    · exact Bindings.consistent_empty
    · exact h.consistent hq
  · rcases hcases hq with ⟨rfl, rfl⟩ | hq
    · simp [hnew, inside] at hls
    · exact h.listened_lt hq hls
  · rcases hcases hq with ⟨rfl, rfl⟩ | hq
    · simp [hnew, inside]
    · exact h.rooted hq hanc
  · obtain ⟨around, scope, haround, hscope, hrest⟩ := Tied.fed h (hfeeds.mp hf)
    exact ⟨around, scope, hold haround, hold hscope, hrest⟩
  · rcases hcases hp with ⟨rfl, rfl⟩ | hp
    · simp [hnew, inside] at hls
    · exact hfeeds.mpr (h.feeds hp hls hmem)
  · rcases hcases hq with ⟨rfl, rfl⟩ | hq
    · simp [hnew, inside] at hls
    · exact h.silent hq hls
  · rcases hcases hq with ⟨rfl, rfl⟩ | hq
    · exact exact_inside t parent name start closed n
    · exact h.exact hl hq

/-! ### A scope that goes -/

/-- A scope without imports in which no scope is left can be taken out. -/
theorem recedes_erase (h : t.Tied fun q _ => q = s) (hnone : ∀ p r n, ¬t.Feeds p r s n)
    (hleaf : ∀ {q scope}, t.get? q = some scope → scope.ancestors.head? ≠ some s)
    {t' : ScopeTree} (ht' : t' = { t with scopes := t.scopes.erase s }) :
    t'.WellTied ∧ t.Recedes t' := by
  have hget : ∀ q, t'.get? q = if s = q then none else t.get? q := by
    intro q
    rw [ht']
    exact lookup_erase _ _ _
  have hsome : ∀ {q scope'}, t'.get? q = some scope' ↔ q ≠ s ∧ t.get? q = some scope' := by
    intro q scope'
    rw [hget]
    by_cases hq : s = q
    · simp [hq]
    · simp [hq, Ne.symm hq]
  have hfeeds : ∀ {p r c n}, t'.Feeds p r c n ↔ t.Feeds p r c n := by
    intro p r c n
    constructor
    · rintro ⟨scope, hs, hp, hr⟩
      exact ⟨scope, (hsome.mp hs).2, hp, hr⟩
    · intro hf
      have hc : c ≠ s := fun hc => hnone p r n (hc ▸ hf)
      obtain ⟨scope, hs, hp, hr⟩ := hf
      exact ⟨scope, hsome.mpr ⟨hc, hs⟩, hp, hr⟩
  -- nothing that stays depends on the scope that goes
  have hother : ∀ {p r c n}, t.Feeds p r c n → p ≠ s ∧ c ≠ s := by
    intro p r c n hf
    refine ⟨?_, fun hc => hnone p r n (hc ▸ hf)⟩
    rintro rfl
    obtain ⟨scope, hs, hp, -⟩ := hf
    exact hleaf hs hp
  have hnext : t'.nextId = t.nextId := by rw [ht']
  refine ⟨⟨fun {q scope'} hq => ?_, fun {q scope' p further} hq hanc => ?_,
    fun {q scope'} hq => ?_, fun {q scope' r ls} hq hls => ?_, fun {q scope' n} hq hanc => ?_,
    fun {p r q n} hf => ?_, fun {p around r ls q n} hp hls hmem => ?_,
    fun {q scope' id ls c n} hq hls => ?_, fun {q scope' n} hl hq => ?_⟩,
    hnext, fun u => ⟨⟨Nat.le_of_eq hnext.symm, fun {q scope'} hq _ => ?_, fun _ hf => hfeeds.mp hf⟩,
    fun {p r now} _ hnow => ⟨now, ?_, .inl now.same_refl⟩, fun {p r} hu => .inl ?_⟩,
    fun hf => hfeeds.mp hf⟩
  · rw [hnext]
    exact h.id_lt (hsome.mp hq).2
  · obtain ⟨hlt, around, haround, hfurther⟩ := h.parent (hsome.mp hq).2 hanc
    refine ⟨hlt, around, hsome.mpr ⟨?_, haround⟩, hfurther⟩
    rintro rfl
    exact hleaf (hsome.mp hq).2 (by rw [hanc, List.head?_cons])
  · exact h.consistent (hsome.mp hq).2
  · exact h.listened_lt (hsome.mp hq).2 hls
  · exact h.rooted (hsome.mp hq).2 hanc
  · have hf := hfeeds.mp hf
    obtain ⟨around, scope, haround, hscope, hrest⟩ := h.fed hf
    obtain ⟨hp, hq⟩ := hother hf
    exact ⟨around, scope, hsome.mpr ⟨hp, haround⟩, hsome.mpr ⟨hq, hscope⟩, hrest⟩
  · exact hfeeds.mpr (h.feeds (hsome.mp hp).2 hls hmem)
  · exact h.silent (hsome.mp hq).2 hls
  · exact h.exact (hsome.mp hq).1 (hsome.mp hq).2
  · exact ⟨scope', (hsome.mp hq).2, .refl scope'⟩
  · obtain ⟨around, hp, hnow⟩ := Option.bind_eq_some_iff.mp hnow
    rw [readerValue?, (hsome.mp hp).2, Option.bind_some, hnow]
  · obtain ⟨c, n, hf, hnot⟩ := hu
    have hf := hfeeds.mp hf
    obtain ⟨hp, hc⟩ := hother hf
    refine ⟨c, n, hf, fun hsettled => hnot fun v w hv hw => ?_⟩
    rw [imported?, hget, if_neg (Ne.symm hc)] at hv
    rw [readerValue?, hget, if_neg (Ne.symm hp)] at hw
    exact hsettled v w hv hw

/-- A scope in which no scope is left is removed together with its imports. -/
theorem recedes_remove (h : t.WellTied) (s : ScopeId)
    (hleaf : ∀ {q scope}, t.get? q = some scope → scope.ancestors.head? ≠ some s) :
    (t.remove s).WellTied ∧ t.Recedes (t.remove s) := by
  cases hs : t.get? s with
  | none =>
    have hget : ∀ q, (t.remove s).get? q = t.get? q := by
      intro q
      rw [remove, hs]
      simp only [List.foldl_nil]
      rw [get?, lookup_erase]
      split
      · rename_i hq
        rw [← hq, hs]
      · rfl
    have hnext : (t.remove s).nextId = t.nextId := by
      rw [remove, hs]
      rfl
    refine ⟨(advances_of_get?_eq h hget hnext s).tied, hnext,
      fun u => (advances_of_get?_eq h hget hnext u).toPasses, fun {p r q n} hf => ?_⟩
    rwa [Feeds, hget] at hf
  | some scope =>
    have hanc : t.ancestors s = scope.ancestors := ancestors_of_get? hs
    have htied : t.Tied fun q _ => q = s := Tied.tighten h fun _ _ _ hl _ => hl.elim
    have hout := unlinked_foldl scope.imports.keys htied (fun q n hl => Nat.le_of_eq hl.symm) hs rfl
    have heq : t.remove s = { (scope.imports.keys.foldl
        (fun t name => t.unlink s name scope.ancestors) t) with
          scopes := (scope.imports.keys.foldl
            (fun t name => t.unlink s name scope.ancestors) t).scopes.erase s } := by
      rw [remove, hs, hanc]
    set v := scope.imports.keys.foldl (fun t name => t.unlink s name scope.ancestors) t with hv
    obtain ⟨new, hnew, -, himports⟩ := hout.self scope hs
    have hnone : ∀ p r n, ¬v.Feeds p r s n := by
      rintro p r n ⟨scope', hs', -, hr⟩
      rw [hnew] at hs'
      cases hs'
      rw [himports] at hr
      split at hr
      · cases hr
      · rename_i hn
        exact hn ((mem_keys_iff_lookup _ _).mpr ⟨r, hr⟩)
    obtain ⟨htied', hrecedes⟩ := recedes_erase (hout.tied.tighten fun q n _ hl _ => .inl (by tauto))
      hnone (fun hq => by
        obtain ⟨old, hold, -, -, hancq⟩ := hout.shape.exists_of_get? hq
        rw [← hancq]
        exact hleaf hold) heq
    exact ⟨htied', hout.recedes.trans hrecedes⟩

theorem get?_remove_self (t : ScopeTree) (s : ScopeId) : (t.remove s).get? s = none := by
  rw [remove, get?, lookup_erase, if_pos rfl]

/-! ### Scopes that are not kept -/

/-- The ancestors of a scope around another one are ancestors of that one too. -/
theorem Tied.mem_ancestors_trans {loose : ScopeId → String → Prop} (h : t.Tied loose)
    (hs : t.get? s = some scope) (hq : q ∈ scope.ancestors) (hget : t.get? q = some around)
    (hp : p ∈ around.ancestors) : p ∈ scope.ancestors := by
  generalize hanc : scope.ancestors = ancestors at hq ⊢
  induction ancestors generalizing s scope with
  | nil => simp at hq
  | cons x further ih =>
    obtain ⟨-, next, hnext, hfurther⟩ := h.parent hs hanc
    rcases List.mem_cons.mp hq with rfl | hq
    · rw [hnext] at hget
      cases hget
      exact List.mem_cons_of_mem _ (hfurther ▸ hp)
    · exact List.mem_cons_of_mem _ (ih hnext hfurther hq)

/-- The scopes that are not kept go, inner ones first. A scope stays as long as one inside it does,
so that none is left in the scope that goes. -/
theorem recedes_removeAll {kept : List ScopeId} :
    ∀ {ids : List ScopeId} {t : ScopeTree}, t.WellTied → ids.Pairwise (· > ·) →
      (∀ {q scope}, t.get? q = some scope → q ∈ ids ∨ q ∈ kept) →
      (∀ {q scope p}, t.get? q = some scope → scope.ancestors.head? = some p → q ∈ kept →
        p ∈ kept) →
      (ids.foldl (fun t s => if kept.contains s then t else t.remove s) t).WellTied ∧
        t.Recedes (ids.foldl (fun t s => if kept.contains s then t else t.remove s) t) := by
  intro ids
  induction ids with
  | nil =>
    intro t h _ _ _
    exact ⟨h, Recedes.refl t⟩
  | cons s rest ih =>
    intro t h hsorted hleft hclosed
    obtain ⟨hlt, hrest⟩ := List.pairwise_cons.mp hsorted
    rw [List.foldl_cons]
    by_cases hs : kept.contains s = true
    · rw [if_pos hs]
      refine ih h hrest (fun {q scope} hq => ?_) hclosed
      rcases hleft hq with hmem | hmem
      · rcases List.mem_cons.mp hmem with rfl | hmem
        · exact .inr (List.contains_iff_mem.mp hs)
        · exact .inl hmem
      · exact .inr hmem
    · rw [if_neg hs]
      obtain ⟨htied, hrecedes⟩ := recedes_remove h s fun {q scope} hq hparent => by
        -- a scope inside it comes later, so that its turn is over and it is kept
        have hsq : s < q := by
          cases hanc : scope.ancestors with
          | nil =>
            rw [hanc] at hparent
            cases hparent
          | cons x further =>
            rw [hanc] at hparent
            cases hparent
            exact (h.parent hq hanc).1
        have hkept : q ∈ kept := by
          refine (hleft hq).resolve_left fun hmem => ?_
          rcases List.mem_cons.mp hmem with rfl | hmem
          · exact Nat.lt_irrefl _ hsq
          · exact Nat.lt_asymm hsq (hlt q hmem)
        exact hs (List.contains_iff_mem.mpr (hclosed hq hparent hkept))
      have hleft' : ∀ {q scope}, (t.remove s).get? q = some scope → q ∈ rest ∨ q ∈ kept := by
        intro q scope hq
        obtain ⟨old, hold, -⟩ := hrecedes.exists_of_get? htied hq
        refine (hleft hold).imp_left fun hmem => (List.mem_cons.mp hmem).resolve_left ?_
        rintro rfl
        rw [get?_remove_self] at hq
        cases hq
      have hclosed' : ∀ {q scope p}, (t.remove s).get? q = some scope →
          scope.ancestors.head? = some p → q ∈ kept → p ∈ kept := by
        intro q scope p hq hparent hmem
        obtain ⟨old, hold, honward⟩ := hrecedes.exists_of_get? htied hq
        exact hclosed hold (honward.ancestors ▸ hparent) hmem
      obtain ⟨htied', hrecedes'⟩ := ih htied hrest hleft' hclosed'
      exact ⟨htied', hrecedes.trans hrecedes'⟩

end ScopeTree

end MathCanvas
