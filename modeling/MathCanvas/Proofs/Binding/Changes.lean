import MathCanvas.Proofs.Binding.Outside

/-!
# The changes that operations report

Every operation on the bindings reports the readers that are to be told and the names that came into
use or went out of use. `Exact` says that the report is what a comparison of the two states gives,
no more and no less: the readers that are there before and after and observe another value, in
document order, and the names that have slots only after or only before. All operations report
exactly as long as there is no NaN in the bindings (`exact_call`); of a NaN the report may say that
it is another value, since a NaN is not equal to itself.
-/

namespace MathCanvas

namespace Bindings

variable {b b' : Bindings} {own : Option ReaderId} {source : Option String}

/-- There is no NaN in the values of the slots. -/
def NaNFree (b : Bindings) : Prop := ∀ slot ∈ b.slots.values, slot.value.hasNaN = false

instance (b : Bindings) : Decidable b.NaNFree :=
  inferInstanceAs (Decidable (∀ slot ∈ b.slots.values, slot.value.hasNaN = false))

/-- What is reported of two states is what a comparison of them gives. -/
structure Exact (b b' : Bindings) (changes : Changes) : Prop where
  /-- The readers of both states that observe another value are listed. -/
  mem_readers : ∀ r : ReaderId, r ∈ changes.readers ↔ ∃ before now,
    b.readerValue? r = some before ∧ b'.readerValue? r = some now ∧ before.valueEq now = false
  /-- They are sorted by their positions after the operation, and then by their numbers. -/
  readers_sorted : changes.readers.Pairwise b'.ReaderLt
  readers_nodup : changes.readers.Nodup
  /-- The names that have slots only after the operation. -/
  mem_opened : ∀ n : String, n ∈ changes.opened ↔ n ∉ b.names ∧ n ∈ b'.names
  opened_nodup : changes.opened.Nodup
  /-- The names that have slots only before the operation. -/
  mem_closed : ∀ n : String, n ∈ changes.closed ↔ n ∈ b.names ∧ n ∉ b'.names
  closed_nodup : changes.closed.Nodup

theorem NaNFree.readerValue? (h : b.NaNFree) {r : ReaderId} {v : SlotValue}
    (hv : b.readerValue? r = some v) : v.hasNaN = false := by
  obtain ⟨x, -, hx⟩ := Option.bind_eq_some_iff.mp hv
  obtain ⟨slot, hslot, rfl⟩ := Option.map_eq_some_iff.mp hx
  exact h slot ((mem_values_iff_lookup b.slots slot).mpr ⟨x, hslot⟩)

/-- If there is no NaN before, the readers that are told are those that observe another value. -/
theorem Reports.mem_iff {readers : List ReaderId} (h : Reports b b' readers) (hb : b.NaNFree)
    {r : ReaderId} : r ∈ readers ↔ Differs b b' r := by
  refine ⟨h.differs r, ?_⟩
  rintro ⟨before, now, hbefore, hnow, hne⟩
  by_contra hr
  have hsame := SlotValue.same_symm (h.told hbefore hnow hr)
  have heq := SlotValue.valueEq_of_same (hb.readerValue? hbefore) hsame
  rw [SlotValue.valueEq_comm, heq] at hne
  exact Bool.noConfusion hne

/-- A name is in use if it has slots. -/
theorem Consistent.mem_names (hb : b.Consistent) {n : String} : n ∈ b.names ↔ b.slotsOf n ≠ [] := by
  rw [names, mem_keys_iff_lookup]
  constructor
  · rintro ⟨ids, hl⟩ hnil
    exact hb.ne_nil n (by rw [hl, ← slotsOf_of_lookup hl, hnil])
  · exact fun hne => ⟨_, lookup_of_slotsOf_ne_nil hne⟩

theorem Observed.mem_opened {changes : Changes} (h : Observed b b' changes own source) {n : String} :
    n ∈ changes.opened ↔ b.slotsOf n = [] ∧ b'.slotsOf n ≠ [] := by
  constructor
  · intro hn
    refine ⟨h.unused n hn, (h.used n).mpr ⟨.inl hn, ?_⟩⟩
    rcases h.one_sided with hnil | hnil
    · rw [hnil] at hn
      cases hn
    · rw [hnil]
      exact List.not_mem_nil
  · rintro ⟨hbefore, hafter⟩
    exact ((h.used n).mp hafter).1.resolve_right fun hne => hne hbefore

theorem Observed.mem_closed {changes : Changes} (h : Observed b b' changes own source) {n : String} :
    n ∈ changes.closed ↔ b.slotsOf n ≠ [] ∧ b'.slotsOf n = [] := by
  constructor
  · intro hn
    refine ⟨h.closed_used n hn, ?_⟩
    by_contra hne
    exact ((h.used n).mp hne).2 hn
  · rintro ⟨hbefore, hafter⟩
    by_contra hn
    exact (h.used n).mpr ⟨.inr hbefore, hn⟩ hafter

theorem nodup_of_length_le_one {α : Type} {l : List α} (h : l.length ≤ 1) : l.Nodup := by
  match l, h with
  | [], _ => exact List.nodup_nil
  | [a], _ => exact List.nodup_singleton a

theorem Observed.exact {changes : Changes} (h : Observed b b' changes own source)
    (hb : b.Consistent) (hnan : b.NaNFree) : Exact b b' changes where
  mem_readers r := by
    rw [h.toReports.mem_iff hnan, Differs]
    simp only [SlotValue.valueEq_comm]
  readers_sorted := h.sorted
  readers_nodup := h.sorted.imp ReaderLt.ne
  mem_opened n := by rw [h.mem_opened, hb.mem_names, h.consistent.mem_names, Decidable.not_not]
  opened_nodup := nodup_of_length_le_one h.opened_le
  mem_closed n := by rw [h.mem_closed, hb.mem_names, h.consistent.mem_names, Decidable.not_not]
  closed_nodup := nodup_of_length_le_one h.closed_le

/-- Every operation, as others see it. -/
theorem Consistent.observed_call (hb : b.Consistent) (c : BindingCall) :
    ∃ own source, Observed b (b.call c).2 (b.call c).1.changes own source := by
  cases c with
  | addDefinition name p => exact ⟨_, _, observed_addDefinition hb name p⟩
  | moveDefinition id p => exact ⟨_, _, observed_moveDefinition hb id p⟩
  | removeDefinition id => exact ⟨_, _, observed_removeDefinition hb id⟩
  | setValue id v =>
    refine ⟨none, (b.slots[id]?).map (·.name), observed_setValue hb id v fun n hn => ?_⟩
    obtain ⟨slot, hslot, rfl⟩ := hb.stored_of_mem (mem_slotsOf_of_importer? hn)
    rw [hslot, Option.map_some]
  | setImported name v => exact ⟨_, _, observed_setImported hb name v⟩
  | addReader name p => exact ⟨_, _, observed_addReader hb name p⟩
  | moveReader id p => exact ⟨_, _, observed_moveReader hb id p⟩
  | removeReader id => exact ⟨_, _, observed_removeReader hb id⟩

/-- After any run, every operation reports exactly what it changes, as long as there is no NaN in the
bindings before it. -/
theorem exact_call (calls : List BindingCall) (hnan : (run calls).NaNFree) (c : BindingCall) :
    Exact (run calls) ((run calls).call c).2 ((run calls).call c).1.changes := by
  obtain ⟨own, source, hobserved⟩ := (consistent_run calls).observed_call c
  exact hobserved.exact (consistent_run calls) hnan

/-- The first definition of `x` moves past the second one, from row 1 to row 5. The reader in row 2
is left with the importer, the one in row 4 keeps the second definition, and the one in row 6
observes the first definition now. -/
theorem exact_call_moveDefinition :
    let row := fun n : UInt64 => (⟨.zero false, ⟨n⟩⟩ : Position)
    let calls : List BindingCall := [.addDefinition "x" (row 1), .addDefinition "x" (row 3),
      .setValue 1 (.defined (.symbol "a")), .setValue 2 (.defined (.symbol "b")),
      .addReader "x" (row 6), .addReader "x" (row 2), .addReader "x" (row 4)]
    let c := BindingCall.moveDefinition 1 (row 5)
    (run calls).NaNFree ∧ ((run calls).call c).1.changes = { readers := [4, 3] } ∧
      Exact (run calls) ((run calls).call c).2 ((run calls).call c).1.changes := by
  intro row calls c
  have hnan : (run calls).NaNFree := by decide +kernel
  exact ⟨hnan, by decide +kernel, exact_call calls hnan c⟩

end Bindings

end MathCanvas
