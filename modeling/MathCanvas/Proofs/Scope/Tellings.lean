import MathCanvas.Proofs.Scope.Audience

/-!
# Those who are told of a change

Whoever is told that a definition is gone observed it (`ScopeTree.binding?_of_mem_removeDefinition`),
and whoever is told that there is a new one observes it
(`ScopeTree.readerValue_of_mem_addDefinition`). When a reader moves, it alone is told
(`ScopeTree.eq_of_mem_moveReader`), and when a definition moves within its place, nobody is
(`ScopeTree.moveDefinition_fst_of_same`). No reader is told twice.
-/

namespace MathCanvas

namespace Bindings

variable {b : Bindings} {id : SlotId} {r r₀ : ReaderId} {name : String} {p : Position}

theorem binding?_of_mem_removeDefinition (hb : b.Consistent)
    (hr : r ∈ (b.removeDefinition id).1.readers) : b.binding? r = some id := by
  unfold removeDefinition at hr
  split at hr
  swap
  · simp at hr
  rename_i slot hslot
  split at hr
  · simp at hr
  obtain ⟨before, now, hnoted, -⟩ := mem_affected.mp hr
  unfold detach at hnoted
  simp only at hnoted
  split at hnoted
  · simp at hnoted
  obtain ⟨reader, hreader, hobserved⟩ :=
    hb.observes hslot (mem_handed.mp (mem_handed_of_noted hslot hnoted)).1
  rw [binding?, hreader, Option.map_some, hobserved]

/-- Only a definition can be removed. -/
theorem exists_of_mem_removeDefinition (hb : b.Consistent)
    (hr : r ∈ (b.removeDefinition id).1.readers) : ∃ n p, (id, p) ∈ b.sequence n := by
  unfold removeDefinition at hr
  split at hr
  swap
  · simp at hr
  rename_i slot hslot
  split at hr
  · simp at hr
  rename_i p hplace
  refine ⟨slot.name, p, mem_sequence_iff.mpr ⟨hb.mem_slotsOf hslot (by simp), ?_⟩⟩
  rw [place?, hslot, Option.map_some, hplace]

theorem nodup_setValue (hb : b.Consistent) (id : SlotId) (v : SlotValue) :
    (b.setValue id v).1.readers.Nodup := by
  unfold setValue
  split
  · rename_i slot hslot
    split
    · exact List.nodup_nil
    · exact (perm_sortBy _ _).nodup_iff.mpr (hb.nodup hslot)
  · exact List.nodup_nil

theorem opened_removeDefinition (b : Bindings) (id : SlotId) :
    (b.removeDefinition id).1.opened = [] := by
  unfold removeDefinition
  split
  · split <;> rfl
  · rfl

theorem eq_of_mem_moveReader (hr : r ∈ (b.moveReader r₀ p).1.readers) : r = r₀ := by
  unfold moveReader at hr
  split at hr
  swap
  · simp at hr
  rename_i reader _
  split at hr
  · simp at hr
  obtain ⟨before, now, hnoted, -⟩ := mem_affected.mp hr
  cases hvalue : b.value? reader.slot with
  | none => simp [hvalue] at hnoted
  | some v =>
    simp only [hvalue, Option.map_some, Option.toList_some, List.lookup_cons, List.lookup_nil] at hnoted
    split at hnoted
    · exact beq_iff_eq.mp ‹_›
    · cases hnoted

theorem opened_moveReader (b : Bindings) (r : ReaderId) (p : Position) :
    (b.moveReader r p).1.opened = [] := by
  unfold moveReader
  split
  · split <;> rfl
  · rfl

end Bindings

namespace ScopeTree

variable {t t' : ScopeTree} {s : ScopeId} {scope : Scope} {id : SlotId} {r r₀ : ReaderId}
  {v : SlotValue} {name : String} {p : Position} {readers : List ReaderId}

/-- If no name comes into use, nobody is told but those who observe another slot. -/
theorem follow_fst {changes : Changes} (h : changes.opened = []) (t : ScopeTree) (s : ScopeId) :
    (t.follow s changes).1 = changes.readers := by
  unfold follow
  rw [h]
  rfl

theorem update_fst {f : Bindings → Changes × Bindings} (hs : t.get? s = some scope)
    (h : (f scope.bindings).1.opened = []) : (t.update s f).1 = (f scope.bindings).1.readers := by
  unfold update
  rw [hs]
  exact follow_fst h _ s

/-! ### Definitions -/

theorem nodup_write (h : t.Consistent) (s : ScopeId) (id : SlotId) (v : SlotValue) :
    (t.write s id v).2.1.Nodup := by
  unfold write
  cases hs : t.get? s with
  | none => exact List.nodup_nil
  | some scope =>
    exact Bindings.nodup_setValue (h hs) id v

theorem removeDefinition_fst_of_none (hs : t.get? s = none) (id : SlotId) :
    (t.removeDefinition s id).1 = [] := by
  unfold removeDefinition update
  rw [get?_modify, if_pos rfl, hs]
  rfl

theorem removeDefinition_fst (hs : t.get? s = some scope) (id : SlotId) :
    (t.removeDefinition s id).1 = (scope.bindings.removeDefinition id).1.readers := by
  have herased : (t.modify s fun scope =>
      { scope with definitionListeners := scope.definitionListeners.erase id }).get? s =
      some { scope with definitionListeners := scope.definitionListeners.erase id } :=
    get?_modify_self _ hs
  have hfst := update_fst (f := (·.removeDefinition id)) herased
    (Bindings.opened_removeDefinition _ id)
  exact hfst

theorem binding?_of_mem_removeDefinition (h : t.Consistent)
    (hr : r ∈ (t.removeDefinition s id).1) : t.binding? s r = some id := by
  cases hs : t.get? s with
  | none =>
    rw [removeDefinition_fst_of_none hs] at hr
    cases hr
  | some scope =>
    rw [removeDefinition_fst hs] at hr
    rw [binding?_of_get? hs]
    exact Bindings.binding?_of_mem_removeDefinition (h hs) hr

theorem exists_of_mem_removeDefinition (h : t.Consistent)
    (hr : r ∈ (t.removeDefinition s id).1) : ∃ n y, (id, y) ∈ t.sequence s n := by
  cases hs : t.get? s with
  | none =>
    rw [removeDefinition_fst_of_none hs] at hr
    cases hr
  | some scope =>
    rw [removeDefinition_fst hs] at hr
    obtain ⟨n, y, hmem⟩ := Bindings.exists_of_mem_removeDefinition (h hs) hr
    exact ⟨n, y, by rwa [sequence_of_get? hs]⟩

theorem nodup_removeDefinition (h : t.Consistent) (s : ScopeId) (id : SlotId) :
    (t.removeDefinition s id).1.Nodup := by
  cases hs : t.get? s with
  | none =>
    rw [removeDefinition_fst_of_none hs]
    exact List.nodup_nil
  | some scope =>
    rw [removeDefinition_fst hs]
    exact (Bindings.observed_removeDefinition (h hs) id).sorted.imp Bindings.ReaderLt.ne

/-- A definition that moves within its place, or is not there, moves unnoticed. -/
theorem moveDefinition_fst_of_same (h : t.Consistent)
    (hsame : ∀ n y, (id, y) ∈ t.sequence s n → y.same p = true) :
    (t.moveDefinition s id p).1 = [] := by
  cases hs : t.get? s with
  | none =>
    unfold moveDefinition update
    rw [hs]
  | some scope =>
    have hnothing : (scope.bindings.moveDefinition id p).1 = {} := by
      by_cases hmem : ∃ n y, (id, y) ∈ t.sequence s n
      · obtain ⟨n, y, hmem⟩ := hmem
        have hstill := hsame n y hmem
        rw [sequence_of_get? hs] at hmem
        obtain ⟨slot, hslot, hplace⟩ :=
          Option.map_eq_some_iff.mp (Bindings.mem_sequence_iff.mp hmem).2
        rw [Bindings.moveDefinition_of_same hslot hplace hstill]
      · rw [Bindings.moveDefinition_of_not_mem (h hs) fun n y hy =>
          hmem ⟨n, y, by rwa [sequence_of_get? hs]⟩]
    unfold moveDefinition
    rw [update_fst hs (by rw [hnothing]), hnothing]

/-- The readers of a name that comes into use are told of nothing: there are none yet. -/
theorem readerValue_of_mem_addDefinition (h : t.WellTied)
    (hadd : t.addDefinition s name p = some (id, readers, t')) (hr : r ∈ readers) :
    t'.readerValue s r = .unset := by
  obtain ⟨scope, hs, heq⟩ := Option.map_eq_some_iff.mp hadd
  simp only [Prod.mk.injEq] at heq
  obtain ⟨rfl, heq⟩ := heq
  have hb := h.consistent hs
  have ho := Bindings.observed_addDefinition hb name p
  obtain ⟨more, hf⟩ := followed_setBindings h hs ho (by simp)
  rw [heq] at hf
  obtain rfl : more = [] := by
    refine List.eq_nil_iff_forall_not_mem.mpr fun r hr => ?_
    obtain ⟨n, hn, y, hanchor⟩ := hf.named _ (get?_modify_self _ hs) r hr
    rw [ho.anchor r (by simp)] at hanchor
    obtain ⟨reader, hreader, hat⟩ := Option.map_eq_some_iff.mp hanchor
    obtain ⟨slot, hslot, hname, -⟩ := hb.held hreader
    have hmem := hb.listed hslot (by simp)
    have hn' : reader.name = n := congrArg Prod.fst hat
    rw [hname, hn', ho.unused n hn] at hmem
    simp at hmem
  have hset : (t.setBindings s (scope.bindings.addDefinition name p).2.2).get? s =
      some { scope with bindings := (scope.bindings.addDefinition name p).2.2 } :=
    get?_modify_self _ hs
  have htold : readers = (scope.bindings.addDefinition name p).2.1.readers :=
    hf.all_eq.trans (List.append_nil _)
  have hvalue := Bindings.readerValue?_of_mem_addDefinition hb (htold ▸ hr)
  rw [readerValue]
  cases hnow : t'.readerValue? s r with
  | none => rw [← readerValue?, hnow, Option.getD_none]
  | some now =>
    have hgiven : (t.setBindings s (scope.bindings.addDefinition name p).2.2).Given s r := by
      refine ⟨h.id_lt hs, fun new hnew => ?_⟩
      cases hset.symm.trans hnew
      obtain ⟨a, ha⟩ := Bindings.exists_anchor?_of_readerValue? hvalue
      obtain ⟨reader, hreader, -⟩ := Option.map_eq_some_iff.mp ha
      exact ho.consistent.reader_lt hreader
    obtain ⟨before, hbefore, hsame⟩ := hf.passes.told hgiven hnow
    rw [readerValue?, hset, Option.bind_some, hvalue] at hbefore
    cases hbefore
    have hunset : now = .unset := SlotValue.same_unset_iff.mp (hsame.resolve_right (by simp))
    rw [← readerValue?, hnow, Option.getD_some, hunset]

/-! ### Readers -/

theorem eq_of_mem_moveReader (hr : r ∈ (t.moveReader s r₀ p).1) : r = r₀ := by
  cases hs : t.get? s with
  | none =>
    unfold moveReader update at hr
    rw [hs] at hr
    cases hr
  | some scope =>
    unfold moveReader at hr
    rw [update_fst hs (Bindings.opened_moveReader _ r₀ p)] at hr
    exact Bindings.eq_of_mem_moveReader hr

end ScopeTree

end MathCanvas
