import MathCanvas.Proofs.Binding.Consistent

/-!
# What the parts of an operation do

An operation on bindings is made of a few parts. `handOver` only moves readers between slots, so it
keeps the lists and all of a slot but its readers (`SameSlots`); the readers stay claimed
(`Claimed.handOver`). `reindex` restores the indices of one name (`listed_reindex`), whatever was
done to its list before.
-/

namespace MathCanvas

/-- A slot without its readers. -/
def Slot.skeleton (slot : Slot) : Slot := { slot with readers := [] }

namespace Bindings

/-- The agreement of lists and slots does not depend on values and readers. -/
theorem Listed.of_eq {b b' : Bindings} {loose : Option SlotId} (hb : b.Listed loose)
    (hl : ∀ name : String, b'.lists[name]? = b.lists[name]?)
    (hs : ∀ id : SlotId, (b'.slots[id]?).map (fun slot => (slot.name, slot.place, slot.index))
      = (b.slots[id]?).map fun slot => (slot.name, slot.place, slot.index)) : b'.Listed loose := by
  have hslots : ∀ name, b'.slotsOf name = b.slotsOf name := fun name => by
    rw [slotsOf, slotsOf, hl]
  have hplace : ∀ id, b'.place? id = b.place? id := by
    intro id
    have hid := congrArg (Option.map fun entry => entry.2.1) (hs id)
    simpa [place?, Function.comp_def] using hid
  refine ⟨?_, ?_, ?_, ?_, ?_⟩
  · intro name
    rw [hl]
    exact hb.ne_nil name
  · intro name i id hid
    rw [hslots] at hid
    obtain ⟨slot, hslot, hname, hindex, himporter⟩ := hb.stored hid
    have heq := hs id
    rw [hslot] at heq
    obtain ⟨slot', hslot', heq⟩ := Option.map_eq_some_iff.mp heq
    simp only [Prod.mk.injEq] at heq
    obtain ⟨hname', hplace', hindex'⟩ := heq
    exact ⟨slot', hslot', hname'.trans hname, hindex'.trans hindex, by rw [hplace', himporter]⟩
  · intro id slot' hid hloose
    have heq := hs id
    rw [hid] at heq
    obtain ⟨slot, hslot, heq⟩ := Option.map_eq_some_iff.mp heq.symm
    simp only [Prod.mk.injEq] at heq
    rw [hslots, ← heq.1, ← heq.2.2]
    exact hb.listed hslot hloose
  · intro id hloose name
    rw [hslots]
    exact hb.not_mem_of_loose hloose name
  · intro name
    rw [hslots]
    refine (hb.ordered name).imp fun hxy p q hp hq => ?_
    rw [hplace] at hp hq
    exact hxy p q hp hq

/-! ### Tables that differ in readers only -/

/-- Two tables have the same lists and, readers apart, the same slots. -/
structure SameSlots (b b' : Bindings) : Prop where
  lists : ∀ name : String, b'.lists[name]? = b.lists[name]?
  slots : ∀ id : SlotId, (b'.slots[id]?).map Slot.skeleton = (b.slots[id]?).map Slot.skeleton

namespace SameSlots

variable {b b' b'' : Bindings}

theorem refl (b : Bindings) : SameSlots b b := ⟨fun _ => rfl, fun _ => rfl⟩

theorem symm (h : SameSlots b b') : SameSlots b' b :=
  ⟨fun name => (h.lists name).symm, fun id => (h.slots id).symm⟩

theorem trans (h : SameSlots b b') (h' : SameSlots b' b'') : SameSlots b b'' :=
  ⟨fun name => (h'.lists name).trans (h.lists name), fun id => (h'.slots id).trans (h.slots id)⟩

theorem slotsOf_eq (h : SameSlots b b') (name : String) : b'.slotsOf name = b.slotsOf name := by
  rw [slotsOf, slotsOf, h.lists]

/-- A slot of the second table comes from a slot of the first. -/
theorem exists_slot (h : SameSlots b b') {id : SlotId} {slot' : Slot}
    (hs : b'.slots[id]? = some slot') :
    ∃ slot, b.slots[id]? = some slot ∧ slot'.skeleton = slot.skeleton := by
  have hid := h.slots id
  rw [hs] at hid
  obtain ⟨slot, hslot, heq⟩ := Option.map_eq_some_iff.mp hid.symm
  exact ⟨slot, hslot, heq.symm⟩

theorem place?_eq (h : SameSlots b b') (id : SlotId) : b'.place? id = b.place? id := by
  have hid := congrArg (Option.map Slot.place) (h.slots id)
  simpa [place?, Slot.skeleton, Function.comp_def] using hid

theorem value?_eq (h : SameSlots b b') (id : SlotId) : b'.value? id = b.value? id := by
  have hid := congrArg (Option.map Slot.value) (h.slots id)
  simpa [value?, Slot.skeleton, Function.comp_def] using hid

theorem lastUpTo?_eq (h : SameSlots b b') (name : String) (p : Position) :
    b'.lastUpTo? name p = b.lastUpTo? name p :=
  lastUpTo?_congr (h.slotsOf_eq name) h.place?_eq p

theorem listed (h : SameSlots b b') {loose : Option SlotId} (hb : b.Listed loose) :
    b'.Listed loose := by
  refine hb.of_eq h.lists fun id => ?_
  have hid := congrArg (Option.map fun slot => (slot.name, slot.place, slot.index)) (h.slots id)
  simpa [Slot.skeleton, Function.comp_def] using hid

end SameSlots

/-- Claims only depend on the readers, and on the names and readers of the slots. -/
theorem Claimed.of_eq {b b' : Bindings} (hb : b.Claimed)
    (hs : ∀ id : SlotId, (b'.slots[id]?).map (fun slot => (slot.name, slot.readers))
      = (b.slots[id]?).map fun slot => (slot.name, slot.readers))
    (hr : ∀ r : ReaderId, b'.readers[r]? = b.readers[r]?) : b'.Claimed := by
  have hslot : ∀ {id : SlotId} {slot' : Slot}, b'.slots[id]? = some slot' →
      ∃ slot, b.slots[id]? = some slot ∧ slot.name = slot'.name ∧ slot.readers = slot'.readers := by
    intro id slot' hid
    have heq := hs id
    rw [hid] at heq
    obtain ⟨slot, hslot, heq⟩ := Option.map_eq_some_iff.mp heq.symm
    simp only [Prod.mk.injEq] at heq
    exact ⟨slot, hslot, heq.1, heq.2⟩
  refine ⟨?_, ?_, ?_⟩
  · intro r reader hreader
    rw [hr] at hreader
    obtain ⟨slot, hslot, hname, hin⟩ := hb.held hreader
    have heq := hs reader.slot
    rw [hslot] at heq
    obtain ⟨slot', hslot', heq⟩ := Option.map_eq_some_iff.mp heq
    simp only [Prod.mk.injEq] at heq
    exact ⟨slot', hslot', by rw [heq.1, hname], by rw [heq.2]; exact hin⟩
  · intro id slot' r hid hin
    obtain ⟨slot, hslot, -, hreaders⟩ := hslot hid
    rw [hr]
    exact hb.observes hslot (hreaders ▸ hin)
  · intro id slot' hid
    obtain ⟨slot, hslot, -, hreaders⟩ := hslot hid
    exact hreaders ▸ hb.nodup hslot

/-! ### Handing readers over -/

section HandOver

variable {b : Bindings} {source target : SlotId} {select : Position → Bool} {s t : Slot}

/-- The readers that `handOver` moves. -/
def handed (b : Bindings) (slot : Slot) (select : Position → Bool) : List ReaderId :=
  slot.readers.filter fun r => (b.readers[r]?).any fun reader => select reader.position

theorem mem_handed {slot : Slot} {r : ReaderId} :
    r ∈ b.handed slot select ↔
      r ∈ slot.readers ∧ ∃ reader, b.readers[r]? = some reader ∧ select reader.position = true := by
  rw [handed, List.mem_filter]
  cases b.readers[r]? <;> simp

theorem handOver_eq (hs : b.slots[source]? = some s) :
    b.handOver source target select =
      ({ b with
          slots := (b.slots.insert source
            { s with readers := s.readers.filter fun r =>
                !(b.readers[r]?).any fun reader => select reader.position }).modify target
            fun slot => { slot with readers := slot.readers ++ b.handed s select }
          readers := (b.handed s select).foldl
            (fun readers r => readers.modify r fun reader => { reader with slot := target })
            b.readers },
        (b.handed s select).map fun r => (r, s.value)) := by
  unfold handOver
  rw [hs]
  rfl

theorem sameSlots_handOver (b : Bindings) (source target : SlotId) (select : Position → Bool) :
    SameSlots b (b.handOver source target select).1 := by
  cases hs : b.slots[source]? with
  | none =>
    have h : b.handOver source target select = (b, []) := by unfold handOver; rw [hs]
    rw [h]
    exact SameSlots.refl b
  | some s =>
    rw [handOver_eq hs]
    refine ⟨fun _ => rfl, fun id => ?_⟩
    simp only [lookup_modify, lookup_insert]
    by_cases hsource : source = id
    · subst hsource
      by_cases htarget : target = source <;> simp [htarget, hs, Slot.skeleton]
    · by_cases htarget : target = id
      · subst htarget
        cases b.slots[target]? <;> simp [hsource, Slot.skeleton]
      · simp [hsource, htarget]

theorem nextId_handOver (b : Bindings) (source target : SlotId) (select : Position → Bool) :
    (b.handOver source target select).1.nextId = b.nextId := by
  unfold handOver
  split <;> rfl

/-- A reader changes hands iff it observed the source and was selected. -/
theorem lookup_readers_handOver (hb : b.Claimed) (hs : b.slots[source]? = some s)
    (target : SlotId) (select : Position → Bool) (r : ReaderId) :
    (b.handOver source target select).1.readers[r]? = (b.readers[r]?).map fun reader =>
      if reader.slot = source ∧ select reader.position = true then { reader with slot := target }
      else reader := by
  rw [handOver_eq hs]
  have hnodup : (b.handed s select).Nodup := (hb.nodup hs).filter _
  simp only [lookup_foldl_modify_keys _ _ hnodup]
  cases hr : b.readers[r]? with
  | none => split <;> rfl
  | some reader =>
    have hmem : r ∈ b.handed s select ↔
        reader.slot = source ∧ select reader.position = true := by
      rw [mem_handed]
      constructor
      · rintro ⟨hin, reader', hr', hsel⟩
        obtain ⟨reader'', hr'', hslot⟩ := hb.observes hs hin
        rw [hr] at hr' hr''
        cases hr'
        cases hr''
        exact ⟨hslot, hsel⟩
      · rintro ⟨hslot, hsel⟩
        obtain ⟨s', hs', -, hin⟩ := hb.held hr
        rw [hslot, hs] at hs'
        cases hs'
        exact ⟨hin, reader, hr, hsel⟩
    simp only [hmem]
    by_cases h : reader.slot = source ∧ select reader.position = true
    · simp only [if_pos h, Option.map_some]
    · simp only [if_neg h, Option.map_some]

/-- Those who are noted observed the source and were selected. -/
theorem mem_handed_of_noted (hs : b.slots[source]? = some s) {r : ReaderId} {v : SlotValue}
    (h : (b.handOver source target select).2.lookup r = some v) : r ∈ b.handed s select := by
  obtain ⟨before, after, hnotes, -⟩ := List.lookup_eq_some_iff.mp h
  have hmem : (r, v) ∈ (b.handOver source target select).2 := by
    rw [hnotes]
    exact List.mem_append_right _ List.mem_cons_self
  rw [handOver_eq hs] at hmem
  obtain ⟨r', hr', heq⟩ := List.mem_map.mp hmem
  cases heq
  exact hr'

/-- They observe the target then. -/
theorem binding?_of_noted (hb : b.Claimed) (hs : b.slots[source]? = some s) {r : ReaderId}
    {v : SlotValue} (h : (b.handOver source target select).2.lookup r = some v) :
    (b.handOver source target select).1.binding? r = some target := by
  obtain ⟨hin, reader, hreader, hselected⟩ := mem_handed.mp (mem_handed_of_noted hs h)
  obtain ⟨reader', hreader', hslot⟩ := hb.observes hs hin
  cases hreader.symm.trans hreader'
  rw [binding?, lookup_readers_handOver hb hs, hreader, Option.map_some,
    if_pos ⟨hslot, hselected⟩, Option.map_some]

/-- The slots after a hand-over, with their readers. -/
theorem lookup_slots_handOver (hs : b.slots[source]? = some s) (hne : source ≠ target)
    (select : Position → Bool) (id : SlotId) :
    (b.handOver source target select).1.slots[id]? =
      if id = source then
        some { s with readers := s.readers.filter fun r =>
          !(b.readers[r]?).any fun reader => select reader.position }
      else if id = target then
        (b.slots[id]?).map fun slot =>
          { slot with readers := slot.readers ++ b.handed s select }
      else b.slots[id]? := by
  rw [handOver_eq hs]
  simp only [lookup_modify, lookup_insert]
  by_cases hsource : id = source
  · subst hsource
    simp [Ne.symm hne]
  · by_cases htarget : id = target
    · subst htarget
      simp [hne, Ne.symm hne]
    · simp [Ne.symm hsource, Ne.symm htarget, hsource, htarget]

/-- Readers that are handed over to a slot of their name stay claimed. -/
theorem Claimed.handOver (hb : b.Claimed) (hs : b.slots[source]? = some s)
    (ht : b.slots[target]? = some t) (hne : source ≠ target) (hname : t.name = s.name) :
    (b.handOver source target select).1.Claimed := by
  have hslots := lookup_slots_handOver hs hne select
  have hreaders := lookup_readers_handOver hb hs target select
  refine ⟨?_, ?_, ?_⟩
  · -- every reader is held by its slot
    intro r reader' hr'
    rw [hreaders] at hr'
    obtain ⟨reader, hr, rfl⟩ := Option.map_eq_some_iff.mp hr'
    obtain ⟨slot, hslot, hslotname, hin⟩ := hb.held hr
    by_cases hmoved : reader.slot = source ∧ select reader.position = true
    · rw [hmoved.1, hs] at hslot
      cases hslot
      simp only [if_pos hmoved]
      refine ⟨{ t with readers := t.readers ++ b.handed s select }, ?_, ?_, ?_⟩
      · rw [hslots, if_neg (Ne.symm hne), if_pos rfl, ht, Option.map_some]
      · rw [← hslotname, ← hname]
      · exact List.mem_append_right _ (mem_handed.mpr ⟨hin, reader, hr, hmoved.2⟩)
    · simp only [if_neg hmoved]
      rw [hslots]
      by_cases hsource : reader.slot = source
      · rw [hsource, hs] at hslot
        cases hslot
        have hsel : select reader.position = false := by
          simpa using fun h => hmoved ⟨hsource, h⟩
        refine ⟨_, if_pos hsource, hslotname, ?_⟩
        simp [List.mem_filter, hin, hr, hsel]
      · rw [if_neg hsource]
        by_cases htarget : reader.slot = target
        · rw [if_pos htarget, hslot]
          exact ⟨_, rfl, hslotname, List.mem_append_left _ hin⟩
        · rw [if_neg htarget]
          exact ⟨slot, hslot, hslotname, hin⟩
  · -- every reader that a slot holds observes it
    intro id slot' r hid hin
    rw [hslots] at hid
    rw [hreaders]
    by_cases hsource : id = source
    · rw [if_pos hsource] at hid
      cases hid
      simp only [List.mem_filter] at hin
      obtain ⟨reader, hr, hslot⟩ := hb.observes hs hin.1
      have hsel : ¬(reader.slot = source ∧ select reader.position = true) := by
        rintro ⟨-, hsel⟩
        simp [hr, hsel] at hin
      rw [hr, Option.map_some, if_neg hsel]
      exact ⟨reader, rfl, hslot.trans hsource.symm⟩
    · rw [if_neg hsource] at hid
      by_cases htarget : id = target
      · rw [if_pos htarget, htarget, ht, Option.map_some] at hid
        cases hid
        rcases List.mem_append.mp hin with hin | hin
        · obtain ⟨reader, hr, hslot⟩ := hb.observes ht hin
          have hnot : ¬(reader.slot = source ∧ select reader.position = true) :=
            fun h => hne (h.1.symm.trans hslot)
          rw [hr, Option.map_some, if_neg hnot]
          exact ⟨reader, rfl, hslot.trans htarget.symm⟩
        · obtain ⟨hin, reader, hr, hsel⟩ := mem_handed.mp hin
          obtain ⟨reader', hr', hslot⟩ := hb.observes hs hin
          rw [hr] at hr'
          cases hr'
          rw [hr, Option.map_some, if_pos ⟨hslot, hsel⟩]
          exact ⟨_, rfl, htarget.symm⟩
      · rw [if_neg htarget] at hid
        obtain ⟨reader, hr, hslot⟩ := hb.observes hid hin
        have hnot : ¬(reader.slot = source ∧ select reader.position = true) :=
          fun h => hsource (hslot.symm.trans h.1)
        rw [hr, Option.map_some, if_neg hnot]
        exact ⟨reader, rfl, hslot⟩
  · -- and holds it once
    intro id slot' hid
    rw [hslots] at hid
    by_cases hsource : id = source
    · rw [if_pos hsource] at hid
      cases hid
      exact (hb.nodup hs).filter _
    · rw [if_neg hsource] at hid
      by_cases htarget : id = target
      · rw [if_pos htarget, htarget, ht, Option.map_some] at hid
        cases hid
        refine List.Nodup.append (hb.nodup ht) ((hb.nodup hs).filter _) ?_
        intro r hrt hrs
        obtain ⟨reader, hr, hslot⟩ := hb.observes ht hrt
        obtain ⟨reader', hr', hslot'⟩ := hb.observes hs (mem_handed.mp hrs).1
        rw [hr] at hr'
        cases hr'
        exact hne (hslot'.symm.trans hslot)
      · rw [if_neg htarget] at hid
        exact hb.nodup hid

end HandOver

/-! ### Indices -/

section Reindex

variable {b : Bindings} {name : String}

theorem slotsOf_reindex (b : Bindings) (name other : String) :
    (b.reindex name).slotsOf other = b.slotsOf other := rfl

theorem lookup_reindex_of_getElem? (hnodup : (b.slotsOf name).Nodup) {i : Nat} {id : SlotId}
    (h : (b.slotsOf name)[i]? = some id) :
    (b.reindex name).slots[id]? = (b.slots[id]?).map fun slot => { slot with index := i } := by
  have hkeys : ((b.slotsOf name).zipIdx.map Prod.fst).Nodup := by
    rw [List.zipIdx_map_fst]; exact hnodup
  have hfold := lookup_foldl_modify (Prod.fst : SlotId × Nat → SlotId)
    (fun entry (slot : Slot) => { slot with index := entry.2 }) _ hkeys b.slots id
  have hfind : (b.slotsOf name).zipIdx.find? (fun entry => decide (entry.1 = id)) = some (id, i) := by
    have hmem : (id, i) ∈ (b.slotsOf name).zipIdx := by
      rw [List.mem_zipIdx_iff_getElem?]
      exact h
    cases hf : (b.slotsOf name).zipIdx.find? (fun entry => decide (entry.1 = id)) with
    | none =>
      rw [List.find?_eq_none] at hf
      exact absurd (decide_eq_true rfl) (hf _ hmem)
    | some entry =>
      have hentry : entry.1 = id := by simpa using List.find?_some hf
      have hat : (b.slotsOf name)[entry.2]? = some entry.1 :=
        List.mem_zipIdx_iff_getElem?.mp (List.mem_of_find?_eq_some hf)
      have hi : entry.2 = i := by
        rw [hentry, ← h] at hat
        have hlt : entry.2 < (b.slotsOf name).length := by
          by_contra hge
          rw [List.getElem?_eq_none (by omega), h] at hat
          cases hat
        exact (List.getElem?_inj hlt hnodup).mp hat
      rw [← hentry, ← hi]
  rw [hfind] at hfold
  exact hfold

theorem lookup_reindex_of_not_mem (hnodup : (b.slotsOf name).Nodup) {id : SlotId}
    (h : id ∉ b.slotsOf name) : (b.reindex name).slots[id]? = b.slots[id]? := by
  have hkeys : ((b.slotsOf name).zipIdx.map Prod.fst).Nodup := by
    rw [List.zipIdx_map_fst]; exact hnodup
  have hfold := lookup_foldl_modify (Prod.fst : SlotId × Nat → SlotId)
    (fun entry (slot : Slot) => { slot with index := entry.2 }) _ hkeys b.slots id
  have hfind : (b.slotsOf name).zipIdx.find? (fun entry => decide (entry.1 = id)) = none := by
    rw [List.find?_eq_none]
    intro entry hentry
    have hat := List.mem_zipIdx_iff_getElem?.mp hentry
    have : entry.1 ≠ id := fun heq => h (heq ▸ List.mem_of_getElem? hat)
    simpa using this
  rw [hfind] at hfold
  exact hfold

/-- Only indices change. -/
theorem exists_reindex (hnodup : (b.slotsOf name).Nodup) (id : SlotId) :
    ∃ i : Slot → Nat,
      (b.reindex name).slots[id]? = (b.slots[id]?).map fun slot => { slot with index := i slot } := by
  by_cases h : id ∈ b.slotsOf name
  · obtain ⟨i, hi⟩ := List.mem_iff_getElem?.mp h
    exact ⟨fun _ => i, lookup_reindex_of_getElem? hnodup hi⟩
  · refine ⟨fun slot => slot.index, ?_⟩
    rw [lookup_reindex_of_not_mem hnodup h]
    cases b.slots[id]? <;> rfl

theorem place?_reindex (hnodup : (b.slotsOf name).Nodup) (id : SlotId) :
    (b.reindex name).place? id = b.place? id := by
  obtain ⟨i, hi⟩ := exists_reindex hnodup id
  rw [place?, place?, hi, Option.map_map]
  rfl

theorem value?_reindex (hnodup : (b.slotsOf name).Nodup) (id : SlotId) :
    (b.reindex name).value? id = b.value? id := by
  obtain ⟨i, hi⟩ := exists_reindex hnodup id
  rw [value?, value?, hi, Option.map_map]
  rfl

/-- Claims do not depend on indices. -/
theorem Claimed.reindex (hb : b.Claimed) (hnodup : (b.slotsOf name).Nodup) :
    (b.reindex name).Claimed := by
  refine hb.of_eq (fun id => ?_) fun _ => rfl
  obtain ⟨i, hi⟩ := exists_reindex hnodup id
  rw [hi, Option.map_map]
  rfl

/-- Writing the indices of a name anew restores the agreement of lists and slots, if the list of
the name was changed in any other way. -/
theorem listed_reindex {loose : Option SlotId} (hne : ∀ n : String, b.lists[n]? ≠ some [])
    (hnodup : (b.slotsOf name).Nodup)
    (hname : ∀ id ∈ b.slotsOf name, ∃ slot, b.slots[id]? = some slot ∧ slot.name = name ∧
      (slot.place = .importer ↔ (b.slotsOf name).head? = some id))
    (hother : ∀ (n : String) (i : Nat) (id : SlotId), n ≠ name → (b.slotsOf n)[i]? = some id →
      ∃ slot, b.slots[id]? = some slot ∧ slot.name = n ∧ slot.index = i ∧
        (slot.place = .importer ↔ i = 0))
    (hlisted : ∀ (id : SlotId) (slot : Slot), b.slots[id]? = some slot → loose ≠ some id →
      if slot.name = name then id ∈ b.slotsOf name
      else (b.slotsOf slot.name)[slot.index]? = some id)
    (hloose : ∀ id : SlotId, loose = some id → ∀ n : String, id ∉ b.slotsOf n)
    (hordered : ∀ n : String, (b.slotsOf n).Pairwise fun x y =>
      ∀ p q, b.place? x = some p → b.place? y = some q → p ≤ q) :
    (b.reindex name).Listed loose where
  ne_nil := hne
  stored {n i id} hid := by
    rw [slotsOf_reindex] at hid
    by_cases hn : n = name
    · subst hn
      obtain ⟨slot, hslot, hslotname, hplace⟩ := hname id (List.mem_of_getElem? hid)
      rw [lookup_reindex_of_getElem? hnodup hid, hslot]
      exact ⟨_, rfl, hslotname, rfl, hplace.trans (head?_eq_some_iff_index hnodup hid)⟩
    · obtain ⟨slot, hslot, hslotname, hindex, hplace⟩ := hother n i id hn hid
      have hnot : id ∉ b.slotsOf name := by
        intro hmem
        obtain ⟨slot', hslot', hslotname', -⟩ := hname id hmem
        rw [hslot] at hslot'
        cases hslot'
        exact hn (hslotname.symm.trans hslotname')
      rw [lookup_reindex_of_not_mem hnodup hnot]
      exact ⟨slot, hslot, hslotname, hindex, hplace⟩
  listed {id slot'} hid hl := by
    rw [slotsOf_reindex]
    by_cases hmem : id ∈ b.slotsOf name
    · obtain ⟨i, hi⟩ := List.mem_iff_getElem?.mp hmem
      rw [lookup_reindex_of_getElem? hnodup hi] at hid
      obtain ⟨slot, hslot, rfl⟩ := Option.map_eq_some_iff.mp hid
      obtain ⟨slot', hslot', hslotname, -⟩ := hname id hmem
      rw [hslot] at hslot'
      cases hslot'
      simp only [hslotname]
      exact hi
    · rw [lookup_reindex_of_not_mem hnodup hmem] at hid
      have h := hlisted id slot' hid hl
      by_cases hn : slot'.name = name
      · rw [if_pos hn] at h
        exact absurd h hmem
      · rw [if_neg hn] at h
        exact h
  not_mem_of_loose {id} hl := hloose id hl
  ordered n := by
    rw [slotsOf_reindex]
    simp only [place?_reindex hnodup]
    exact hordered n

end Reindex

end Bindings

end MathCanvas
