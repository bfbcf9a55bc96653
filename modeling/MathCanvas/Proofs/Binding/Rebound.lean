import MathCanvas.Proofs.Binding.Parts
import MathCanvas.Proofs.Value

/-!
# Readers that change hands

Between two tables readers may come to observe other slots, while the slots keep their values. An
operation notes what such readers observed before. `Rebound` says that the notes are right and
complete: it holds of each part of an operation (`rebound_handOver`) and of parts one after another,
with the notes put behind each other (`Rebound.trans`). What `affected` makes of the notes are just
the readers that observe another value (`mem_affected`), each once and in document order
(`Rebound.reports`).
-/

namespace MathCanvas

/-- A reader without the slot that it observes. -/
def Reader.anchor (reader : Reader) : String × Position := (reader.name, reader.position)

namespace Bindings

/-- The name and the position of a reader. -/
def anchor? (b : Bindings) (r : ReaderId) : Option (String × Position) :=
  (b.readers[r]?).map Reader.anchor

/-- From one table to another the slots keep their values, and the readers their names and
positions; the readers that observe another slot are noted, with what they observed. -/
structure Rebound (b b' : Bindings) (former : Former) : Prop where
  anchor : ∀ r : ReaderId, b'.anchor? r = b.anchor? r
  value : ∀ id : SlotId, b'.value? id = b.value? id
  nextId : b'.nextId = b.nextId
  noted : ∀ {r : ReaderId} {v : SlotValue}, former.lookup r = some v → b.readerValue? r = some v
  unnoted : ∀ {r : ReaderId}, former.lookup r = none → b'.binding? r = b.binding? r

theorem readerValue?_eq_of_binding? {b b' : Bindings} {r : ReaderId}
    (hr : b'.binding? r = b.binding? r) (hv : ∀ id : SlotId, b'.value? id = b.value? id) :
    b'.readerValue? r = b.readerValue? r := by
  rw [readerValue?, readerValue?, hr, funext hv]

theorem exists_reader_of_anchor? {b b' : Bindings} (h : ∀ r, b'.anchor? r = b.anchor? r)
    {r : ReaderId} {reader' : Reader} (hr : b'.readers[r]? = some reader') :
    ∃ reader, b.readers[r]? = some reader ∧ reader.name = reader'.name ∧
      reader.position = reader'.position := by
  have hanchor := h r
  rw [anchor?, hr] at hanchor
  obtain ⟨reader, hreader, heq⟩ := Option.map_eq_some_iff.mp hanchor.symm
  simp only [Reader.anchor, Prod.mk.injEq] at heq
  exact ⟨reader, hreader, heq.1, heq.2⟩

theorem exists_slot_of_value? {b b' : Bindings} (h : ∀ id, b'.value? id = b.value? id)
    {id : SlotId} {slot' : Slot} (hid : b'.slots[id]? = some slot') :
    ∃ slot, b.slots[id]? = some slot ∧ slot.value = slot'.value := by
  have hvalue := h id
  rw [value?, hid] at hvalue
  obtain ⟨slot, hslot, heq⟩ := Option.map_eq_some_iff.mp hvalue.symm
  exact ⟨slot, hslot, heq⟩

namespace Rebound

variable {b b' b'' : Bindings} {former later : Former}

theorem of_readers_eq (hr : ∀ r : ReaderId, b'.readers[r]? = b.readers[r]?)
    (hv : ∀ id : SlotId, b'.value? id = b.value? id) (hn : b'.nextId = b.nextId) :
    Rebound b b' [] where
  anchor r := by rw [anchor?, anchor?, hr]
  value := hv
  nextId := hn
  noted h := by simp at h
  unnoted {r} _ := by rw [binding?, binding?, hr]

/-- A reader that changed hands twice is noted twice; the first note counts. -/
theorem trans (h : Rebound b b' former) (h' : Rebound b' b'' later) :
    Rebound b b'' (former ++ later) where
  anchor r := (h'.anchor r).trans (h.anchor r)
  value id := (h'.value id).trans (h.value id)
  nextId := h'.nextId.trans h.nextId
  noted {r v} hr := by
    rw [List.lookup_append] at hr
    cases hf : former.lookup r with
    | some w =>
      rw [hf, Option.some_or] at hr
      cases hr
      exact h.noted hf
    | none =>
      rw [hf, Option.none_or] at hr
      rw [← readerValue?_eq_of_binding? (h.unnoted hf) h.value]
      exact h'.noted hr
  unnoted {r} hr := by
    rw [List.lookup_append, Option.or_eq_none_iff] at hr
    exact (h'.unnoted hr.2).trans (h.unnoted hr.1)

/-- Numbers that were given out remain so. -/
theorem numbered (h : Rebound b b' former) (hb : b.Numbered) : b'.Numbered where
  slot_lt {id slot'} hid := by
    obtain ⟨slot, hslot, -⟩ := exists_slot_of_value? h.value hid
    rw [h.nextId]
    exact hb.slot_lt hslot
  reader_lt {r reader'} hr := by
    obtain ⟨reader, hreader, -⟩ := exists_reader_of_anchor? h.anchor hr
    rw [h.nextId]
    exact hb.reader_lt hreader

end Rebound

/-! ### Parts of operations -/

section

variable {b : Bindings} {source : SlotId} {s : Slot}

theorem rebound_handOver (hb : b.Claimed) (hs : b.slots[source]? = some s) (target : SlotId)
    (select : Position → Bool) :
    Rebound b (b.handOver source target select).1 (b.handOver source target select).2 := by
  have hreaders := lookup_readers_handOver hb hs target select
  have hnotes : ∀ r, (b.handOver source target select).2.lookup r =
      if r ∈ b.handed s select then some s.value else none := by
    intro r
    rw [handOver_eq hs]
    simp only
    induction b.handed s select with
    | nil => rfl
    | cons x rest ih =>
      rw [List.map_cons, List.lookup_cons, ih]
      by_cases hx : r = x
      · simp [hx]
      · rw [show (r == x) = false by simpa using hx]
        simp [hx]
  refine ⟨?_, (sameSlots_handOver b source target select).value?_eq,
    nextId_handOver b source target select, ?_, ?_⟩
  · intro r
    rw [anchor?, hreaders, Option.map_map, anchor?]
    congr 1
    funext reader
    rw [Function.comp_apply]
    split <;> rfl
  · -- the readers that were handed over observed the source
    intro r v hr
    rw [hnotes] at hr
    split at hr
    · rename_i hmem
      cases hr
      obtain ⟨reader, hreader, hslot⟩ := hb.observes hs (mem_handed.mp hmem).1
      rw [readerValue?, binding?, hreader, Option.map_some, hslot, Option.bind_some, value?, hs,
        Option.map_some]
    · cases hr
  · -- the others were not selected, or observe another slot
    intro r hr
    rw [hnotes] at hr
    split at hr
    · cases hr
    · rename_i hmem
      rw [binding?, binding?, hreaders, Option.map_map]
      cases hreader : b.readers[r]? with
      | none => rfl
      | some reader =>
        have hnot : ¬(reader.slot = source ∧ select reader.position = true) := by
          rintro ⟨hslot, hsel⟩
          obtain ⟨s', hs', -, hin⟩ := hb.held hreader
          rw [hslot, hs] at hs'
          cases hs'
          exact hmem (mem_handed.mpr ⟨hin, reader, hreader, hsel⟩)
        rw [Option.map_some, Option.map_some, Function.comp_apply, if_neg hnot]

theorem rebound_reindex {name : String} (hnodup : (b.slotsOf name).Nodup) :
    Rebound b (b.reindex name) [] :=
  Rebound.of_readers_eq (fun _ => rfl) (value?_reindex hnodup) rfl

end

/-! ### Document order -/

/-- Document order is by position, and then by number. -/
theorem document_total (p q : Position) (m n : Nat) :
    (p < q ∨ ¬q < p ∧ m ≤ n) ∨ (q < p ∨ ¬p < q ∧ n ≤ m) := by
  simp only [Position.lt_def]
  omega

theorem document_trans {p q t : Position} {k m n : Nat} (h : p < q ∨ ¬q < p ∧ k ≤ m)
    (h' : q < t ∨ ¬t < q ∧ m ≤ n) : p < t ∨ ¬t < p ∧ k ≤ n := by
  simp only [Position.lt_def] at *
  omega

theorem document_asymm {p q : Position} {m n : Nat} (h : p < q ∨ ¬q < p ∧ m < n) :
    ¬(q < p ∨ ¬p < q ∧ n < m) := by
  simp only [Position.lt_def] at *
  omega

theorem readerLe_iff {b : Bindings} {x y : Reader} {r s : ReaderId} (hr : b.readers[r]? = some x)
    (hs : b.readers[s]? = some y) :
    b.readerLe r s = true ↔ x.position < y.position ∨ ¬y.position < x.position ∧ r ≤ s := by
  unfold readerLe
  simp only [hr, hs, Bool.or_eq_true, Bool.and_eq_true, Bool.not_eq_true', decide_eq_true_eq,
    decide_eq_false_iff_not]

theorem readerLe_total (b : Bindings) (r s : ReaderId) :
    b.readerLe r s = true ∨ b.readerLe s r = true := by
  cases hr : b.readers[r]? with
  | none =>
    unfold readerLe
    cases b.readers[s]? <;> simp [hr, Nat.le_total]
  | some x =>
    cases hs : b.readers[s]? with
    | none =>
      unfold readerLe
      simp [hr, hs]
    | some y =>
      rw [readerLe_iff hr hs, readerLe_iff hs hr]
      exact document_total _ _ _ _

theorem readerLe_trans (b : Bindings) (r s t : ReaderId) (h : b.readerLe r s = true)
    (h' : b.readerLe s t = true) : b.readerLe r t = true := by
  cases hr : b.readers[r]? with
  | none =>
    -- readers that are not there are first
    unfold readerLe at *
    cases hs : b.readers[s]? <;> cases ht : b.readers[t]? <;> simp_all
    exact Nat.le_trans h h'
  | some x =>
    cases hs : b.readers[s]? with
    | none => simp [readerLe, hr, hs] at h
    | some y =>
      cases ht : b.readers[t]? with
      | none => simp [readerLe, hs, ht] at h'
      | some z =>
        rw [readerLe_iff hr hs] at h
        rw [readerLe_iff hs ht] at h'
        rw [readerLe_iff hr ht]
        exact document_trans h h'

/-- The strict document order of readers: by position, and then by number. -/
def ReaderLt (b : Bindings) (r s : ReaderId) : Prop :=
  ∃ x y, b.readers[r]? = some x ∧ b.readers[s]? = some y ∧
    (x.position < y.position ∨ ¬y.position < x.position ∧ r < s)

theorem ReaderLt.ne {b : Bindings} {r s : ReaderId} (h : b.ReaderLt r s) : r ≠ s := by
  rintro rfl
  obtain ⟨x, y, hx, hy, hlt⟩ := h
  cases hx.symm.trans hy
  exact document_asymm hlt hlt

/-- Different readers that are there are strictly sorted. -/
theorem pairwise_sortReaders {b : Bindings} {l : List ReaderId} (hnodup : l.Nodup)
    (hl : ∀ r ∈ l, b.readers[r]? ≠ none) : (b.sortReaders l).Pairwise b.ReaderLt := by
  have hsorted : (b.sortReaders l).Pairwise fun r s => b.readerLe r s = true :=
    pairwise_sortBy b.readerLe_total b.readerLe_trans l
  refine (hsorted.and ((perm_sortBy _ l).nodup_iff.mpr hnodup)).imp_of_mem ?_
  rintro r s hr hs ⟨hle, hne⟩
  obtain ⟨x, hx⟩ := Option.ne_none_iff_exists'.mp (hl r (mem_sortBy.mp hr))
  obtain ⟨y, hy⟩ := Option.ne_none_iff_exists'.mp (hl s (mem_sortBy.mp hs))
  refine ⟨x, y, hx, hy, ((readerLe_iff hx hy).mp hle).imp_right fun h => ⟨h.1, ?_⟩⟩
  exact Nat.lt_of_le_of_ne h.2 hne

/-! ### The readers that are affected -/

theorem mem_firstEntries {former : Former} {r : ReaderId} {v : SlotValue} :
    (r, v) ∈ firstEntries former ↔ former.lookup r = some v := by
  unfold firstEntries
  -- the entries so far are those of the notes so far
  suffices h : ∀ (rest seen : Former),
      (r, v) ∈ rest.foldl
        (fun seen entry => if seen.any (·.1 == entry.1) then seen else seen ++ [entry]) seen ↔
      (r, v) ∈ seen ∨ (r ∉ seen.map Prod.fst ∧ rest.lookup r = some v) by
    simpa using h former []
  intro rest
  induction rest with
  | nil => simp
  | cons entry rest ih =>
    intro seen
    obtain ⟨x, w⟩ := entry
    rw [List.foldl_cons, ih, List.lookup_cons]
    have hany : seen.any (·.1 == x) = true ↔ x ∈ seen.map Prod.fst := by
      simp [List.any_eq_true]
    by_cases hx : x ∈ seen.map Prod.fst
    · rw [if_pos (hany.mpr hx)]
      by_cases hr : r = x
      · subst hr
        simp only [hx, not_true_eq_false, false_and, or_false]
      · rw [show (r == x) = false by simpa using hr]
    · rw [if_neg (fun h => hx (hany.mp h))]
      by_cases hr : r = x
      · subst hr
        simp only [List.mem_append, List.mem_singleton, Prod.mk.injEq, true_and, List.map_append,
          List.map_cons, List.map_nil, or_true, not_true_eq_false, false_and, or_false, beq_self_eq_true,
          Option.some.injEq, hx, not_false_eq_true]
        exact or_congr_right eq_comm
      · rw [show (r == x) = false by simpa using hr]
        simp [hr]

/-- A reader is affected if it observes another value than it did. -/
theorem mem_affected {b : Bindings} {former : Former} {r : ReaderId} :
    r ∈ b.affected former ↔ ∃ before now, former.lookup r = some before ∧
      b.readerValue? r = some now ∧ now.valueEq before = false := by
  rw [affected, sortReaders, mem_sortBy, List.mem_map]
  constructor
  · rintro ⟨⟨r', before⟩, hmem, rfl⟩
    obtain ⟨hentry, hdiffers⟩ := List.mem_filter.mp hmem
    cases hnow : b.readerValue? r' with
    | none => simp [hnow] at hdiffers
    | some now =>
      exact ⟨before, now, mem_firstEntries.mp hentry, rfl, by simpa [hnow] using hdiffers⟩
  · rintro ⟨before, now, hentry, hnow, hdiffers⟩
    refine ⟨(r, before), List.mem_filter.mpr ⟨mem_firstEntries.mpr hentry, ?_⟩, rfl⟩
    simp [hnow, hdiffers]

/-- Every reader that stays and observes another value than before is listed. -/
def Told (b b' : Bindings) (readers : List ReaderId) : Prop :=
  ∀ {r : ReaderId} {before now : SlotValue}, b.readerValue? r = some before →
    b'.readerValue? r = some now → r ∉ readers → now.same before

/-- The affected readers are all that have to be told, also if some readers or slots have been
removed in the meantime. -/
theorem Rebound.told {b b' c : Bindings} {former : Former} (h : Rebound b c former)
    (hkeep : ∀ (r : ReaderId) (now : SlotValue), b'.readerValue? r = some now →
      c.readerValue? r = some now) : Told b b' (b'.affected former) := by
  intro r before now hbefore hnow hr
  cases hf : former.lookup r with
  | none =>
    have heq := readerValue?_eq_of_binding? (h.unnoted hf) h.value
    rw [hkeep r now hnow, hbefore, Option.some.injEq] at heq
    exact SlotValue.same_of_eq heq
  | some v =>
    have hv := h.noted hf
    rw [hbefore, Option.some.injEq] at hv
    subst hv
    apply SlotValue.same_of_valueEq
    by_contra hne
    exact hr (mem_affected.mpr ⟨before, now, hf, hnow, by simpa using hne⟩)

/-- A reader observes another value than before. -/
def Differs (b b' : Bindings) (r : ReaderId) : Prop :=
  ∃ before now, b.readerValue? r = some before ∧ b'.readerValue? r = some now ∧
    now.valueEq before = false

/-- The readers that are listed are all that have to be told, and only those, in document order. -/
structure Reports (b b' : Bindings) (readers : List ReaderId) : Prop where
  told : Told b b' readers
  differs : ∀ r ∈ readers, Differs b b' r
  sorted : readers.Pairwise b'.ReaderLt

theorem Differs.exists_reader {b b' : Bindings} {r : ReaderId} (h : Differs b b' r) :
    b'.readers[r]? ≠ none := by
  obtain ⟨-, now, -, hnow, -⟩ := h
  obtain ⟨x, hx, -⟩ := Option.bind_eq_some_iff.mp hnow
  obtain ⟨reader, hreader, -⟩ := Option.map_eq_some_iff.mp hx
  rw [hreader]
  exact Option.some_ne_none _

theorem nodup_map_fst_firstEntries (former : Former) :
    ((firstEntries former).map Prod.fst).Nodup := by
  unfold firstEntries
  suffices h : ∀ (rest seen : Former), (seen.map Prod.fst).Nodup →
      ((rest.foldl (fun seen entry =>
        if seen.any (·.1 == entry.1) then seen else seen ++ [entry]) seen).map Prod.fst).Nodup by
    exact h former [] List.nodup_nil
  intro rest
  induction rest with
  | nil => exact fun seen h => h
  | cons entry rest ih =>
    intro seen h
    rw [List.foldl_cons]
    refine ih _ ?_
    split
    · exact h
    · rename_i hnew
      rw [List.map_append, List.map_singleton]
      refine h.append (List.nodup_singleton _) (List.disjoint_singleton.mpr fun hmem => hnew ?_)
      obtain ⟨other, hother, heq⟩ := List.mem_map.mp hmem
      exact List.any_eq_true.mpr ⟨other, hother, beq_iff_eq.mpr heq⟩

/-- If the notes are right and all that have to be told are affected, the affected ones are just
those. -/
theorem Told.reports {b b' : Bindings} {former : Former} (h : Told b b' (b'.affected former))
    (hnoted : ∀ {r : ReaderId} {v : SlotValue}, former.lookup r = some v →
      b.readerValue? r = some v) : Reports b b' (b'.affected former) := by
  have hdiffers : ∀ r ∈ b'.affected former, Differs b b' r := by
    intro r hr
    obtain ⟨before, now, hentry, hnow, hne⟩ := mem_affected.mp hr
    exact ⟨before, now, hnoted hentry, hnow, hne⟩
  refine ⟨h, hdiffers, ?_⟩
  refine pairwise_sortReaders ?_ fun r hr => (hdiffers r (mem_sortBy.mpr hr)).exists_reader
  exact (nodup_map_fst_firstEntries former).sublist (List.filter_sublist.map _)

theorem Rebound.reports {b b' c : Bindings} {former : Former} (h : Rebound b c former)
    (hkeep : ∀ (r : ReaderId) (now : SlotValue), b'.readerValue? r = some now →
      c.readerValue? r = some now) : Reports b b' (b'.affected former) :=
  Told.reports (h.told hkeep) h.noted

/-- What was observed before may be told of another table. -/
theorem Reports.of_readerValue?_eq {b b' c : Bindings} {readers : List ReaderId}
    (h : Reports c b' readers) (hvalue : ∀ r, c.readerValue? r = b.readerValue? r) :
    Reports b b' readers where
  told {r before now} hbefore := h.told ((hvalue r).trans hbefore)
  differs r hr := by
    obtain ⟨before, now, hbefore, hrest⟩ := h.differs r hr
    exact ⟨before, now, (hvalue r).symm.trans hbefore, hrest⟩
  sorted := h.sorted

/-- Nobody is listed if nobody observes another value. -/
theorem Told.reports_nil {b b' : Bindings} (h : Told b b' []) : Reports b b' [] :=
  ⟨h, by simp, List.Pairwise.nil⟩

theorem Told.of_readerValue?_eq {b b' : Bindings} (h : ∀ {r : ReaderId} {before now : SlotValue},
    b.readerValue? r = some before → b'.readerValue? r = some now → now = before)
    (l : List ReaderId) : Told b b' l := by
  intro r before now hbefore hnow _
  exact SlotValue.same_of_eq (h hbefore hnow)

end Bindings

end MathCanvas
