import MathCanvas.Proofs.Binding.Definitions

/-!
# Readers are added, moved and removed

For each operation on readers, what it does to a consistent table. The slots keep their places and
values, so an operation is described by the names and positions of the readers afterwards
(`Anchored`, `Dropped`). A reader that moves within the reach of its slot need not be bound anew,
because a slot reaches a position iff it is the last one up to there (`reaches_iff`).
-/

namespace MathCanvas

namespace Bindings

variable {b b' : Bindings} {id : ReaderId} {name : String} {p : Position} {reader : Reader}

/-! ### Binding a reader to a slot -/

theorem lookup_slots_bind (x : SlotId) :
    (b.bind id reader).slots[x]? =
      if reader.slot = x then
        (b.slots[x]?).map fun slot => { slot with readers := slot.readers ++ [id] }
      else b.slots[x]? :=
  lookup_modify _ _ _ _

theorem lookup_readers_bind (r : ReaderId) :
    (b.bind id reader).readers[r]? = if id = r then some reader else b.readers[r]? :=
  lookup_insert _ _ _ _

theorem lookup_slots_unbind (slot x : SlotId) :
    (b.unbind id slot).slots[x]? =
      if slot = x then
        (b.slots[x]?).map fun slot => { slot with readers := slot.readers.filter (· != id) }
      else b.slots[x]? :=
  lookup_modify _ _ _ _

theorem sameSlots_bind (b : Bindings) (id : ReaderId) (reader : Reader) :
    SameSlots b (b.bind id reader) := by
  refine ⟨fun _ => rfl, fun x => ?_⟩
  rw [lookup_slots_bind]
  split
  · rw [Option.map_map]
    rfl
  · rfl

theorem sameSlots_unbind (b : Bindings) (id : ReaderId) (slot : SlotId) :
    SameSlots b (b.unbind id slot) := by
  refine ⟨fun _ => rfl, fun x => ?_⟩
  rw [lookup_slots_unbind]
  split
  · rw [Option.map_map]
    rfl
  · rfl

/-- A new reader is claimed by the slot that it is bound to. -/
theorem Claimed.bind (hb : b.Claimed) (reader : Reader) (hr : b.readers[id]? = none) {t : Slot}
    (ht : b.slots[reader.slot]? = some t) (hname : t.name = reader.name) :
    (b.bind id reader).Claimed := by
  refine ⟨?_, ?_, ?_⟩
  · intro r other hother
    rw [lookup_readers_bind] at hother
    rw [lookup_slots_bind]
    by_cases h : id = r
    · rw [if_pos h] at hother
      cases hother
      rw [if_pos rfl, ht]
      exact ⟨_, rfl, hname, by simp [h]⟩
    · rw [if_neg h] at hother
      obtain ⟨s, hs, hsname, hin⟩ := hb.held hother
      by_cases hslot : reader.slot = other.slot
      · rw [if_pos hslot, hs]
        exact ⟨_, rfl, hsname, List.mem_append_left _ hin⟩
      · rw [if_neg hslot]
        exact ⟨s, hs, hsname, hin⟩
  · intro x s r hx hin
    rw [lookup_slots_bind] at hx
    rw [lookup_readers_bind]
    have hold : ∀ {s : Slot}, b.slots[x]? = some s → r ∈ s.readers →
        ∃ other, (if id = r then some reader else b.readers[r]?) = some other ∧ other.slot = x := by
      intro s hs hin
      obtain ⟨other, hother, hslot⟩ := hb.observes hs hin
      rw [if_neg]
      · exact ⟨other, hother, hslot⟩
      · rintro rfl
        rw [hr] at hother
        cases hother
    by_cases hslot : reader.slot = x
    · rw [if_pos hslot] at hx
      obtain ⟨s', hs', rfl⟩ := Option.map_eq_some_iff.mp hx
      rcases List.mem_append.mp hin with hin | hin
      · exact hold hs' hin
      · rw [if_pos (List.mem_singleton.mp hin).symm]
        exact ⟨reader, rfl, hslot⟩
    · rw [if_neg hslot] at hx
      exact hold hx hin
  · intro x s hx
    rw [lookup_slots_bind] at hx
    by_cases hslot : reader.slot = x
    · rw [if_pos hslot] at hx
      obtain ⟨s', hs', rfl⟩ := Option.map_eq_some_iff.mp hx
      refine List.Nodup.append (hb.nodup hs') (List.nodup_singleton _) ?_
      intro r hin hid
      obtain ⟨other, hother, -⟩ := hb.observes hs' hin
      rw [List.mem_singleton.mp hid, hr] at hother
      cases hother
    · rw [if_neg hslot] at hx
      exact hb.nodup hx

/-- The bindings without a reader. -/
def without (b : Bindings) (id : ReaderId) (slot : SlotId) : Bindings :=
  ({ b with readers := b.readers.erase id } : Bindings).unbind id slot

theorem lookup_readers_without (slot : SlotId) (r : ReaderId) :
    (b.without id slot).readers[r]? = if id = r then none else b.readers[r]? :=
  lookup_erase _ _ _

theorem lookup_slots_without (slot x : SlotId) :
    (b.without id slot).slots[x]? =
      if slot = x then
        (b.slots[x]?).map fun slot => { slot with readers := slot.readers.filter (· != id) }
      else b.slots[x]? :=
  lookup_modify _ _ _ _

theorem sameSlots_without (b : Bindings) (id : ReaderId) (slot : SlotId) :
    SameSlots b (b.without id slot) :=
  ⟨fun _ => rfl, (sameSlots_unbind b id slot).slots⟩

/-- Without a reader, the others stay claimed. -/
theorem Claimed.without (hb : b.Claimed) (hr : b.readers[id]? = some reader) :
    (b.without id reader.slot).Claimed := by
  refine ⟨?_, ?_, ?_⟩
  · intro r other hother
    rw [lookup_readers_without] at hother
    rw [lookup_slots_without]
    by_cases h : id = r
    · rw [if_pos h] at hother
      cases hother
    · rw [if_neg h] at hother
      obtain ⟨s, hs, hsname, hin⟩ := hb.held hother
      by_cases hslot : reader.slot = other.slot
      · rw [if_pos hslot, hs]
        exact ⟨_, rfl, hsname, List.mem_filter.mpr ⟨hin, by simpa using Ne.symm h⟩⟩
      · rw [if_neg hslot]
        exact ⟨s, hs, hsname, hin⟩
  · intro x s r hx hin
    rw [lookup_slots_without] at hx
    rw [lookup_readers_without]
    by_cases hslot : reader.slot = x
    · rw [if_pos hslot] at hx
      obtain ⟨s', hs', rfl⟩ := Option.map_eq_some_iff.mp hx
      obtain ⟨hin, hne⟩ := List.mem_filter.mp hin
      rw [if_neg (by simpa using Ne.symm (by simpa using hne))]
      exact hb.observes hs' hin
    · rw [if_neg hslot] at hx
      obtain ⟨other, hother, hbound⟩ := hb.observes hx hin
      rw [if_neg]
      · exact ⟨other, hother, hbound⟩
      · rintro rfl
        rw [hr] at hother
        cases hother
        exact hslot hbound
  · intro x s hx
    rw [lookup_slots_without] at hx
    by_cases hslot : reader.slot = x
    · rw [if_pos hslot] at hx
      obtain ⟨s', hs', rfl⟩ := Option.map_eq_some_iff.mp hx
      exact (hb.nodup hs').filter _
    · rw [if_neg hslot] at hx
      exact hb.nodup hx

/-! ### Tables that differ by a reader -/

/-- What giving a reader a name and a position does. -/
structure Anchored (b b' : Bindings) (id : ReaderId) (name : String) (p : Position) : Prop
    extends Consistent b' where
  slotsOf : ∀ n : String, b'.slotsOf n = b.slotsOf n
  place : ∀ x, b'.place? x = b.place? x
  value : ∀ x, b'.value? x = b.value? x
  anchor : ∀ r : ReaderId, b'.anchor? r = if r = id then some (name, p) else b.anchor? r

/-- What removing a reader does before its name is put out of use. -/
structure Dropped (b b' : Bindings) (id : ReaderId) : Prop extends Sound b' where
  slotsOf : ∀ n : String, b'.slotsOf n = b.slotsOf n
  place : ∀ x, b'.place? x = b.place? x
  value : ∀ x, b'.value? x = b.value? x
  anchor : ∀ r : ReaderId, b'.anchor? r = if r = id then none else b.anchor? r
  nextId : b'.nextId = b.nextId

/-- A reader with a name in use can be set to a position: it observes the last slot up to there. -/
theorem anchored_of (hb : b.Sound) (hb' : b'.Claimed) (hsame : SameSlots b b')
    (hr : ∀ r : ReaderId, b'.readers[r]? = if id = r then some reader else b.readers[r]?)
    (hlast : b.lastUpTo? reader.name reader.position = some reader.slot)
    (hn : b.nextId ≤ b'.nextId) (hid : id < b'.nextId)
    (hneed : ∀ (n : String) (i : SlotId), b.slotsOf n = [i] → n = reader.name ∨ b.HasReader n)
    (hkeep : ∀ other, b.readers[id]? = some other → other.name = reader.name) :
    Anchored b b' id reader.name reader.position := by
  have hanchor : ∀ r, b'.anchor? r =
      if r = id then some (reader.name, reader.position) else b.anchor? r := by
    intro r
    rw [anchor?, hr]
    by_cases h : id = r
    · rw [if_pos h, if_pos h.symm]
      rfl
    · rw [if_neg h, if_neg (Ne.symm h), anchor?]
  have hsound : b'.Sound := { hsame.listed hb.toListed, hb' with
    slot_lt := fun {x s} hx => by
      obtain ⟨s', hs', -⟩ := hsame.exists_slot hx
      exact Nat.lt_of_lt_of_le (hb.slot_lt hs') hn
    reader_lt := fun {r other} hother => by
      rw [hr] at hother
      by_cases h : id = r
      · rwa [← h]
      · rw [if_neg h] at hother
        exact Nat.lt_of_lt_of_le (hb.reader_lt hother) hn
    within := fun {r other} hother => by
      rw [hsame.lastUpTo?_eq]
      rw [hr] at hother
      by_cases h : id = r
      · rw [if_pos h] at hother
        cases hother
        exact hlast
      · rw [if_neg h] at hother
        exact hb.within hother }
  refine { hsound.consistent fun n i hids => ?_ with
    slotsOf := hsame.slotsOf_eq
    place := hsame.place?_eq
    value := hsame.value?_eq
    anchor := hanchor }
  rw [hsame.slotsOf_eq] at hids
  have hself : b'.HasReader reader.name := ⟨id, reader, by rw [hr, if_pos rfl], rfl⟩
  rcases hneed n i hids with rfl | ⟨r, other, hother, rfl⟩
  · exact hself
  · by_cases h : id = r
    · rw [hkeep other (h ▸ hother)]
      exact hself
    · exact ⟨r, other, by rw [hr, if_neg h, hother], rfl⟩

theorem readerValue?_of_anchored (hr : ∀ r : ReaderId, b'.readers[r]? =
      if id = r then some reader else b.readers[r]?)
    (hv : ∀ x : SlotId, b'.value? x = b.value? x) {r : ReaderId} (h : r ≠ id) :
    b'.readerValue? r = b.readerValue? r := by
  refine readerValue?_eq_of_binding? ?_ hv
  rw [binding?, binding?, hr, if_neg (Ne.symm h)]

/-! ### Adding -/

theorem Listed.exists_lastUpTo? {loose : Option SlotId} (hb : b.Listed loose)
    (h : b.slotsOf name ≠ []) (p : Position) :
    ∃ x, b.lastUpTo? name p = some x := by
  obtain ⟨l₁, l₂, before, hids, -, hupTo, hafter⟩ := hb.exists_cut h p
  refine ⟨before, ?_⟩
  rw [lastUpTo?, hids, getLast?_filter_eq_some_iff (hids ▸ hb.nodup_slotsOf name)]
  exact ⟨hupTo before (by simp), hafter⟩

/-- Adding a reader brings its name into use, and then binds it. -/
theorem addReader_spec (hb : b.Consistent) (name : String) (p : Position) :
    ∃ c opened, Opened b c name opened ∧
      (b.addReader name p).1 = c.nextId ∧
      Anchored c (b.addReader name p).2.2 (b.addReader name p).1 name p ∧
      (b.addReader name p).2.2.nextId = c.nextId + 1 ∧
      (b.addReader name p).2.1 = { opened } ∧
      Told b (b.addReader name p).2.2 [] := by
  have ho := opened_openName hb.toSound name
  set c := (b.openName name).1 with hc
  obtain ⟨x, hx⟩ := ho.exists_lastUpTo? ho.ne_nil_of p
  have hadvanced : ∀ n, ({ c with nextId := c.nextId + 1 } : Bindings).slotAt? n p
      = c.slotAt? n p := fun _ => rfl
  have hslot : c.slotAt? name p = some x := by rw [ho.slotAt?_eq, hx]
  set d : Bindings :=
    ({ c with nextId := c.nextId + 1 } : Bindings).bind c.nextId ⟨name, p, x⟩ with hd
  have heq : b.addReader name p = (c.nextId, { opened := (b.openName name).2 }, d) := by
    simp only [addReader, ← hc, hadvanced, hslot, Option.getD_some, hd]
  rw [heq]
  obtain ⟨t, ht, htname⟩ := ho.stored_of_mem (mem_of_lastUpTo? hx)
  have hsame : SameSlots c d := ⟨fun _ => rfl, (sameSlots_bind c c.nextId ⟨name, p, x⟩).slots⟩
  have hclaimed : d.Claimed :=
    (ho.toClaimed.bind ⟨name, p, x⟩ ho.readers_nextId ht htname).of_eq
      (fun _ => rfl) fun _ => rfl
  have hr : ∀ r, d.readers[r]? = if c.nextId = r then some ⟨name, p, x⟩ else c.readers[r]? :=
    lookup_readers_bind
  refine ⟨c, _, ho, rfl, ?_, rfl, rfl, Told.of_readerValue?_eq (fun {r before now} hbefore hnow => ?_) _⟩
  · refine anchored_of ho.toSound hclaimed hsame hr hx (Nat.le_succ _) (Nat.lt_succ_self _)
      (fun n i hids => ?_) fun other hother => ?_
    · by_cases hn : n = name
      · exact .inl hn
      · right
        rw [ho.slotsOf, if_neg (fun h => hn h.1)] at hids
        obtain ⟨r, reader, hreader, hname⟩ := hb.hasReader hids
        exact ⟨r, reader, by rw [ho.readers]; exact hreader, hname⟩
    · rw [ho.readers_nextId] at hother
      cases hother
  · -- a reader that was there observes the same slot
    have hne : r ≠ c.nextId := by
      rintro rfl
      obtain ⟨y, hy, -⟩ := Option.bind_eq_some_iff.mp hbefore
      obtain ⟨other, hother, -⟩ := Option.map_eq_some_iff.mp hy
      rw [← ho.readers, ho.readers_nextId] at hother
      cases hother
    rw [readerValue?_of_anchored hr hsame.value?_eq hne, ho.readerValue?_eq hb.toSound, hbefore,
      Option.some.injEq] at hnow
    exact hnow.symm

/-! ### Moving -/

/-- A slot reaches a position iff it is the last one of its name up to there. -/
theorem Listed.reaches_iff {loose : Option SlotId} (hb : b.Listed loose) {x : SlotId}
    (hx : x ∈ b.slotsOf name) :
    b.reaches x (.placed p) = true ↔ b.lastUpTo? name p = some x := by
  obtain ⟨i, hi⟩ := List.mem_iff_getElem?.mp hx
  obtain ⟨slot, hslot, rfl, hindex, -⟩ := hb.stored hi
  obtain ⟨hlt, hget⟩ := List.getElem?_eq_some_iff.mp hi
  have hids : b.slotsOf slot.name
      = (b.slotsOf slot.name).take i ++ x :: (b.slotsOf slot.name).drop (i + 1) := by
    rw [← hget, List.getElem_cons_drop, List.take_append_drop]
  set l₂ := (b.slotsOf slot.name).drop (i + 1) with hl₂
  have hnext : (b.slotsOf slot.name)[slot.index + 1]? = l₂.head? := by
    rw [hindex, hl₂, List.head?_drop]
  have hupTo : b.isUpTo (.placed p) x = decide (slot.place ≤ .placed p) := by
    rw [isUpTo, place?, hslot]
    rfl
  have hlast : b.lastUpTo? slot.name p = some x ↔
      b.isUpTo (.placed p) x = true ∧ ∀ y ∈ l₂, b.isUpTo (.placed p) y = false := by
    have hnodup := hb.nodup_slotsOf slot.name
    rw [hids] at hnodup
    rw [lastUpTo?, hids]
    exact getLast?_filter_eq_some_iff hnodup
  have hreaches : b.reaches x (.placed p) = true ↔
      b.isUpTo (.placed p) x = true ∧ ∀ z, l₂.head? = some z → b.isUpTo (.placed p) z = false := by
    unfold reaches
    simp only [hslot, hnext, Bool.and_eq_true, hupTo]
    cases l₂.head? <;> simp
  rw [hreaches, hlast]
  have hcut : b.slotsOf slot.name = ((b.slotsOf slot.name).take i ++ [x]) ++ l₂ := by
    rw [List.append_assoc, List.singleton_append]
    exact hids
  refine and_congr_right fun _ => ⟨fun h => hb.after_of_head? hcut h, fun h z hz => ?_⟩
  exact h z (List.mem_of_mem_head? hz)

theorem moveReader_of_none (h : b.readers[id]? = none) : b.moveReader id p = ({}, b) := by
  rw [moveReader, h]

theorem moveReader_spec (hb : b.Consistent) (h : b.readers[id]? = some reader) (p : Position) :
    Anchored b (b.moveReader id p).2 id reader.name p ∧
      (b.moveReader id p).2.nextId = b.nextId ∧
      (b.moveReader id p).1.opened = [] ∧ (b.moveReader id p).1.closed = [] ∧
      Reports b (b.moveReader id p).2 (b.moveReader id p).1.readers := by
  have hmem := mem_of_lastUpTo? (hb.within h)
  have hkeep : ∀ other, b.readers[id]? = some other → other.name = reader.name := by
    intro other hother
    rw [h] at hother
    cases hother
    rfl
  have hneed : ∀ (n : String) (i : SlotId), b.slotsOf n = [i] → n = reader.name ∨ b.HasReader n :=
    fun n i hids => .inr (hb.hasReader hids)
  by_cases hreach : b.reaches reader.slot (.placed p) = true
  · -- the reader stays with its slot
    set c : Bindings := { b with readers := b.readers.insert id { reader with position := p } }
      with hc
    have heq : b.moveReader id p = ({}, c) := by simp only [moveReader, h, hreach, if_true, hc]
    rw [heq]
    have hr : ∀ r, c.readers[r]? =
        if id = r then some { reader with position := p } else b.readers[r]? :=
      fun r => lookup_insert _ _ _ _
    have hsame : SameSlots b c := ⟨fun _ => rfl, fun _ => rfl⟩
    have hbinding : ∀ r, c.binding? r = b.binding? r := by
      intro r
      rw [binding?, hr]
      by_cases hid : id = r
      · rw [if_pos hid, ← hid, binding?, h]
        rfl
      · rw [if_neg hid, binding?]
    have hclaimed : c.Claimed := by
      refine ⟨fun {r other} hother => ?_, fun {x s r} hx hin => ?_, fun {x s} hx => hb.nodup hx⟩
      · rw [hr] at hother
        by_cases hid : id = r
        · subst hid
          rw [if_pos rfl] at hother
          cases hother
          have hheld := hb.held h
          exact hheld
        · rw [if_neg hid] at hother
          exact hb.held hother
      · obtain ⟨other, hother, hslot⟩ := hb.observes hx hin
        rw [hr]
        by_cases hid : id = r
        · subst hid
          rw [h] at hother
          cases hother
          exact ⟨_, if_pos rfl, hslot⟩
        · exact ⟨other, by rw [if_neg hid, hother], hslot⟩
    refine ⟨anchored_of hb.toSound hclaimed hsame hr ((hb.reaches_iff hmem).mp hreach)
      (Nat.le_refl _) (hb.reader_lt h) hneed hkeep, rfl, rfl, rfl,
      Told.reports_nil (Told.of_readerValue?_eq (fun {r _ _} hbefore hnow => ?_) [])⟩
    rw [readerValue?_eq_of_binding? (hbinding r) hsame.value?_eq, hbefore,
      Option.some.injEq] at hnow
    exact hnow.symm
  · -- the reader is bound anew
    obtain ⟨x, hx⟩ := hb.exists_lastUpTo? (List.ne_nil_of_mem hmem) p
    have hslot : b.slotAt? reader.name p = some x := by rw [hb.slotAt?_eq, hx]
    obtain ⟨t, ht, htname⟩ := hb.stored_of_mem (mem_of_lastUpTo? hx)
    obtain ⟨s, hs, hsname, -⟩ := hb.held h
    set moved : Reader := { reader with position := p, slot := x } with hmoved
    set c := (b.unbind id reader.slot).bind id moved with hc
    have heq : b.moveReader id p = ({ readers := c.affected [(id, s.value)] }, c) := by
      have hvalue : b.value? reader.slot = some s.value := by rw [value?, hs, Option.map_some]
      simp only [moveReader, h, hreach, if_false, hslot, Option.getD_some, hvalue, Option.map_some,
        Option.toList_some, hc, hmoved, Bool.false_eq_true]
    rw [heq]
    have hr : ∀ r, c.readers[r]? = if id = r then some moved else b.readers[r]? :=
      lookup_readers_bind
    have hsame : SameSlots b c := (sameSlots_unbind b id reader.slot).trans (sameSlots_bind _ _ _)
    have hclaimed : c.Claimed := by
      have hout := hb.toClaimed.without h
      obtain ⟨t', ht', heqt⟩ := (sameSlots_without b id reader.slot).symm.exists_slot ht
      simp only [Slot.skeleton, Slot.mk.injEq] at heqt
      have hnone : (b.without id reader.slot).readers[id]? = none := by
        rw [lookup_readers_without, if_pos rfl]
      have hin := hout.bind moved hnone ht' (heqt.1.symm.trans htname)
      refine hin.of_eq (fun _ => rfl) fun r => ?_
      rw [hr, lookup_readers_bind, lookup_readers_without]
      by_cases hid : id = r
      · rw [if_pos hid, if_pos hid]
      · rw [if_neg hid, if_neg hid, if_neg hid]
    refine ⟨anchored_of hb.toSound hclaimed hsame hr hx (Nat.le_refl _) (hb.reader_lt h) hneed hkeep,
      rfl, rfl, rfl, ?_⟩
    have hold : b.readerValue? id = some s.value := by
      rw [readerValue?, binding?, h, Option.map_some, Option.bind_some, value?, hs, Option.map_some]
    refine Told.reports (fun {r before now} hbefore hnow hnot => ?_) fun {r v} hentry => ?_
    · by_cases hid : r = id
      · subst hid
        cases hold.symm.trans hbefore
        apply SlotValue.same_of_valueEq
        by_contra hne
        exact hnot (mem_affected.mpr ⟨s.value, now, by simp, hnow, by simpa using hne⟩)
      · rw [readerValue?_of_anchored hr hsame.value?_eq hid, hbefore, Option.some.injEq] at hnow
        exact SlotValue.same_of_eq hnow.symm
    · obtain ⟨rfl, rfl⟩ : r = id ∧ s.value = v := by
        rw [List.lookup_cons] at hentry
        split at hentry
        · rename_i heq
          exact ⟨beq_iff_eq.mp heq, Option.some.inj hentry⟩
        · cases hentry
      exact hold

/-! ### Removing -/

theorem removeReader_of_none (h : b.readers[id]? = none) : b.removeReader id = ({}, b) := by
  rw [removeReader, h]

/-- Removing a reader unbinds it, and then puts its name out of use if it can be. -/
theorem removeReader_spec (hb : b.Consistent) (h : b.readers[id]? = some reader) :
    ∃ c, c = b.without id reader.slot ∧ Dropped b c id ∧
      (b.removeReader id).2 = (c.closeName reader.name).1 ∧
      (b.removeReader id).2.Consistent ∧
      (b.removeReader id).1 = { closed := (c.closeName reader.name).2 } ∧
      Told b (b.removeReader id).2 [] := by
  set c := b.without id reader.slot with hc
  have heq : b.removeReader id =
      ({ closed := (c.closeName reader.name).2 }, (c.closeName reader.name).1) := by
    simp only [removeReader, h, hc, without]
  have hsame : SameSlots b c := sameSlots_without b id reader.slot
  have hr : ∀ r, c.readers[r]? = if id = r then none else b.readers[r]? :=
    lookup_readers_without reader.slot
  have hold : ∀ {r : ReaderId} {other : Reader}, c.readers[r]? = some other →
      b.readers[r]? = some other := by
    intro r other hother
    rw [hr] at hother
    split at hother
    · cases hother
    · exact hother
  have hsound : c.Sound := { hsame.listed hb.toListed, hb.toClaimed.without h with
    slot_lt := fun {x s} hx => by
      obtain ⟨s', hs', -⟩ := hsame.exists_slot hx
      exact hb.slot_lt hs'
    reader_lt := fun hother => hb.reader_lt (hold hother)
    within := fun hother => by
      rw [hsame.lastUpTo?_eq]
      exact hb.within (hold hother) }
  have hanchor : ∀ r, c.anchor? r = if r = id then none else b.anchor? r := by
    intro r
    rw [anchor?, hr]
    by_cases hid : id = r
    · rw [if_pos hid, if_pos hid.symm, Option.map_none]
    · rw [if_neg hid, if_neg (Ne.symm hid), anchor?]
  rw [heq]
  refine ⟨c, hc, { hsound with
    slotsOf := hsame.slotsOf_eq
    place := hsame.place?_eq
    value := hsame.value?_eq
    anchor := hanchor
    nextId := rfl }, rfl, ?_, rfl, Told.of_readerValue?_eq (fun {r before now} hbefore hnow => ?_) _⟩
  · refine hsound.consistent_closeName fun n i hn hids => ?_
    rw [hsame.slotsOf_eq] at hids
    obtain ⟨r, other, hother, rfl⟩ := hb.hasReader hids
    refine ⟨r, other, ?_, rfl⟩
    rw [hr, if_neg, hother]
    rintro rfl
    rw [h] at hother
    cases hother
    exact hn rfl
  · -- the readers that stay observe the same slots
    have hcnow := readerValue?_of_value?_le (readers_closeName hsound _)
      (fun x v hx => value?_closeName_le hsound hx) r now hnow
    have hbnow : b.readerValue? r = some now := by
      obtain ⟨x, hx, hvalue⟩ := Option.bind_eq_some_iff.mp hcnow
      obtain ⟨other, hother, rfl⟩ := Option.map_eq_some_iff.mp hx
      rw [hsame.value?_eq] at hvalue
      rw [readerValue?, binding?, hold hother, Option.map_some, Option.bind_some, hvalue]
    rw [hbefore, Option.some.injEq] at hbnow
    exact hbnow.symm

end Bindings

end MathCanvas
