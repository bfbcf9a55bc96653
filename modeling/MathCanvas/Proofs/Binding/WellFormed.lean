import MathCanvas.Proofs.Binding.Checked
import MathCanvas.Proofs.Binding.Guarded
import Mathlib

/-!
# Well-formed bindings

`WellFormed` says of a table, in terms of its four parts and nothing else, that it is in order.
Consistent bindings are (`Consistent.wellFormed`), and `check` finds no defect in them
(`Consistent.check_eq_ok`): it meets every reader and every slot exactly once, so that its counts
come out right too. `consistent_iff_check` names what a consistent table has beyond that.
`run_wellFormed` puts this together for all runs.
-/

namespace MathCanvas

namespace Bindings

variable {b : Bindings} {id : SlotId} {name : String} {slot : Slot}

/-- The parts of a table agree. -/
structure WellFormed (b : Bindings) : Prop where
  /-- A list has an importer, at index zero, and definitions behind it. -/
  importer_first : ∀ {name : String} {ids : List SlotId}, b.lists[name]? = some ids →
    ∃ importer rest, ids = importer :: rest ∧ b.place? importer = some .importer ∧
      ∀ id ∈ rest, ∃ p, b.place? id = some (.placed p)
  /-- A listed slot is stored, with its index and the name of the list. -/
  stored : ∀ {name : String} {ids : List SlotId} {i : Nat} {id : SlotId},
    b.lists[name]? = some ids → ids[i]? = some id →
      ∃ slot, b.slots[id]? = some slot ∧ slot.index = i ∧ slot.name = name
  /-- A stored slot is listed. -/
  listed : ∀ {id : SlotId} {slot : Slot}, b.slots[id]? = some slot →
    ∃ ids, b.lists[slot.name]? = some ids ∧ ids[slot.index]? = some id
  /-- No slot is listed twice, be it in one list or in two. -/
  listed_once : ∀ {n m : String} {ids ids' : List SlotId} {i j : Nat} {id : SlotId},
    b.lists[n]? = some ids → b.lists[m]? = some ids' → ids[i]? = some id → ids'[j]? = some id →
      n = m ∧ i = j
  /-- Positions do not decrease along a list. -/
  ordered : ∀ {name : String} {ids : List SlotId} {i : Nat} {x y : SlotId} {p q : SlotPlace},
    b.lists[name]? = some ids → ids[i]? = some x → ids[i + 1]? = some y → b.place? x = some p →
      b.place? y = some q → p ≤ q
  /-- A reader occurs once among the readers of its slot, which has its name; the reader is not
  before the slot, and before the next one. -/
  held : ∀ {r : ReaderId} {reader : Reader}, b.readers[r]? = some reader →
    ∃ slot ids, b.slots[reader.slot]? = some slot ∧ b.lists[reader.name]? = some ids ∧
      slot.name = reader.name ∧ slot.readers.count r = 1 ∧ slot.place ≤ .placed reader.position ∧
      ∀ next place, ids[slot.index + 1]? = some next → b.place? next = some place →
        .placed reader.position < place
  /-- A reader that a slot holds is there, and holds that slot. -/
  held_by_one : ∀ {id : SlotId} {slot : Slot} {r : ReaderId}, b.slots[id]? = some slot →
    r ∈ slot.readers → ∃ reader, b.readers[r]? = some reader ∧ reader.slot = id
  /-- A list that is only an importer is read. -/
  needed : ∀ {name : String} {importer : SlotId}, b.lists[name]? = some [importer] →
    ∃ slot, b.slots[importer]? = some slot ∧ slot.readers ≠ []
  slot_lt : ∀ {id : SlotId} {slot : Slot}, b.slots[id]? = some slot → id < b.nextId
  reader_lt : ∀ {r : ReaderId} {reader : Reader}, b.readers[r]? = some reader → r < b.nextId

/-- A reader is not before its slot, and before the next one. -/
theorem Consistent.reach (hb : b.Consistent) {r : ReaderId} {reader : Reader}
    (hr : b.readers[r]? = some reader) (hslot : b.slots[reader.slot]? = some slot) :
    slot.place ≤ .placed reader.position ∧
      ∀ next place, (b.slotsOf reader.name)[slot.index + 1]? = some next →
        b.place? next = some place → .placed reader.position < place := by
  obtain ⟨s, hs, hname, -⟩ := hb.held hr
  obtain rfl := Option.some.inj (hslot.symm.trans hs)
  have hlast := hb.within hr
  rw [← hname, hb.lastUpTo?_eq_some_iff hslot] at hlast
  rw [← hname]
  refine ⟨hlast.1, fun next place hnext hplace => hlast.2 place ?_⟩
  rw [hnext, Option.bind_some, hplace]
  rfl

theorem Consistent.lookup_slotsOf (hb : b.Consistent) (h : b.slots[id]? = some slot) :
    b.lists[slot.name]? = some (b.slotsOf slot.name) :=
  lookup_of_slotsOf_ne_nil (List.ne_nil_of_mem (hb.mem_slotsOf h (by simp)))

theorem Consistent.wellFormed (hb : b.Consistent) : b.WellFormed where
  importer_first {name ids} hl := by
    have hids := slotsOf_of_lookup hl
    have hne : b.slotsOf name ≠ [] := fun hnil => hb.ne_nil name (by rw [hl, ← hids, hnil])
    obtain ⟨importer, rest, hcons, himporter, hrest⟩ := hb.exists_cons hne
    exact ⟨importer, rest, by rw [← hids, hcons], himporter, hrest⟩
  stored {name ids i id} hl hi := by
    obtain ⟨slot, hslot, hname, hindex, -⟩ := hb.stored (by rw [slotsOf_of_lookup hl]; exact hi)
    exact ⟨slot, hslot, hindex, hname⟩
  listed h := ⟨_, hb.lookup_slotsOf h, hb.listed h (by simp)⟩
  listed_once {n m ids ids' i j id} hn hm hi hj := by
    obtain ⟨s, hs, hname, hindex, -⟩ := hb.stored (by rw [slotsOf_of_lookup hn]; exact hi)
    obtain ⟨s', hs', hname', hindex', -⟩ := hb.stored (by rw [slotsOf_of_lookup hm]; exact hj)
    rw [hs] at hs'
    cases hs'
    exact ⟨hname.symm.trans hname', hindex.symm.trans hindex'⟩
  ordered {name ids i x y p q} hl hi hj hp hq := by
    have hordered := hb.ordered name
    rw [slotsOf_of_lookup hl, List.pairwise_iff_getElem] at hordered
    obtain ⟨hlt, rfl⟩ := List.getElem?_eq_some_iff.mp hi
    obtain ⟨hlt', rfl⟩ := List.getElem?_eq_some_iff.mp hj
    exact hordered i (i + 1) hlt hlt' (Nat.lt_succ_self i) p q hp hq
  held {r reader} hr := by
    obtain ⟨slot, hslot, hname, hin⟩ := hb.held hr
    obtain ⟨hle, hlt⟩ := hb.reach hr hslot
    refine ⟨slot, _, hslot, hname ▸ hb.lookup_slotsOf hslot, hname, ?_, hle, ?_⟩
    · exact List.count_eq_one_of_mem (hb.nodup hslot) hin
    · exact hlt
  held_by_one h hin := hb.observes h hin
  needed {name importer} hl := by
    have hread := hb.needed (slotsOf_of_lookup hl)
    unfold isRead at hread
    split at hread
    · rename_i slot hslot
      exact ⟨slot, hslot, by simpa using hread⟩
    · cases hread
  slot_lt := hb.slot_lt
  reader_lt := hb.reader_lt

/-! ### Checking -/

theorem Consistent.inOrder (hb : b.Consistent) {i : Nat} (hi : (b.slotsOf name)[i]? = some id) :
    ∃ slot, b.InOrder name i id (b.slotsOf name)[i + 1]? slot := by
  obtain ⟨slot, hslot, rfl, rfl, himporter⟩ := hb.stored hi
  have hplace : b.place? id = some slot.place := by rw [place?, hslot, Option.map_some]
  refine ⟨slot, hslot, rfl, rfl, himporter, fun y hy => ?_, fun place hnext => ?_, fun r hr => ?_⟩
  · obtain ⟨next, hnext, -⟩ := hb.stored hy
    exact ⟨next.place, by rw [place?, hnext, Option.map_some]⟩
  · obtain ⟨y, hy, hy'⟩ := Option.bind_eq_some_iff.mp hnext
    have hordered := List.pairwise_iff_getElem.mp (hb.ordered slot.name)
    obtain ⟨hlt, rfl⟩ := List.getElem?_eq_some_iff.mp hi
    obtain ⟨hlt', rfl⟩ := List.getElem?_eq_some_iff.mp hy
    exact hordered _ _ hlt hlt' (Nat.lt_succ_self _) _ _ hplace hy'
  · obtain ⟨reader, hreader, rfl⟩ := hb.observes hslot hr
    obtain ⟨slot', hslot', hname, -⟩ := hb.held hreader
    obtain rfl := Option.some.inj (hslot.symm.trans hslot')
    have hlast := hb.within hreader
    rw [← hname, hb.lastUpTo?_eq_some_iff hslot] at hlast
    exact ⟨reader, hreader, rfl, hlast⟩

/-- Every reader is held once, so that counting them name by name counts all. -/
theorem Consistent.length_holds (hb : b.Consistent) :
    (b.listedSlots.flatMap b.holds).length = b.readers.size := by
  rw [← Std.TreeMap.length_keys]
  refine List.Perm.length_eq ((List.perm_ext_iff_of_nodup
    (nodup_flatMap_holds hb.nodup_listedSlots hb.observes hb.nodup) Std.TreeMap.nodup_keys).mpr
      fun r => ?_)
  rw [List.mem_flatMap, mem_keys_iff_lookup]
  constructor
  · rintro ⟨id, -, hr⟩
    obtain ⟨slot, hslot, hin⟩ := mem_holds.mp hr
    obtain ⟨reader, hreader, -⟩ := hb.observes hslot hin
    exact ⟨reader, hreader⟩
  · rintro ⟨reader, hreader⟩
    obtain ⟨slot, hslot, -, hin⟩ := hb.held hreader
    exact ⟨reader.slot, mem_listedSlots.mpr ⟨slot.name, hb.mem_slotsOf hslot nofun⟩,
      mem_holds.mpr ⟨slot, hslot, hin⟩⟩

/-- Every slot is listed once, so that counting them name by name counts all. -/
theorem Consistent.length_listedSlots (hb : b.Consistent) :
    b.listedSlots.length = b.slots.size := by
  rw [← Std.TreeMap.length_keys]
  refine List.Perm.length_eq ((List.perm_ext_iff_of_nodup hb.nodup_listedSlots
    Std.TreeMap.nodup_keys).mpr fun id => ?_)
  rw [mem_listedSlots, mem_keys_iff_lookup]
  constructor
  · rintro ⟨name, hid⟩
    obtain ⟨slot, hslot, -⟩ := hb.stored_of_mem hid
    exact ⟨slot, hslot⟩
  · rintro ⟨slot, hslot⟩
    exact ⟨slot.name, hb.mem_slotsOf hslot nofun⟩

/-- Consistent bindings have no defect. -/
theorem Consistent.check_eq_ok (hb : b.Consistent) : b.check = .ok () :=
  check_eq_ok_iff.mpr
    { ne_nil := hb.ne_nil
      allInOrder := fun name i id hi => by
        rw [Nat.zero_add]
        exact hb.inOrder hi
      needed := hb.needed
      length_holds := hb.length_holds
      length_listedSlots := hb.length_listedSlots }

/-- What the check leaves open: that no slot lists a reader twice, that a reader has the name of its
slot, and that the numbers in use were given out. -/
theorem consistent_iff_check : b.Consistent ↔ b.check = .ok () ∧
    (∀ {id : SlotId} {slot : Slot}, b.slots[id]? = some slot → slot.readers.Nodup) ∧
    (∀ {r : ReaderId} {reader : Reader} {slot : Slot}, b.readers[r]? = some reader →
      b.slots[reader.slot]? = some slot → slot.name = reader.name) ∧ b.Numbered := by
  constructor
  · intro hb
    refine ⟨hb.check_eq_ok, hb.nodup, fun {r reader slot} hr hslot => ?_, hb.toNumbered⟩
    obtain ⟨slot', hslot', hname, -⟩ := hb.held hr
    obtain rfl := Option.some.inj (hslot.symm.trans hslot')
    exact hname
  · rintro ⟨hcheck, hnodup, hnames, hnumbered⟩
    have h := check_eq_ok_iff.mp hcheck
    have hclaimed : b.Claimed :=
      { held := fun {r reader} hr => by
          obtain ⟨slot, hslot, hin⟩ := h.held hnodup hr
          exact ⟨slot, hslot, hnames hr hslot, hin⟩
        observes := h.observes
        nodup := hnodup }
    refine { h.listed, hclaimed, hnumbered with
      within := fun {r reader} hr => ?_
      needed := h.needed }
    obtain ⟨slot, hslot, hname, hin⟩ := hclaimed.held hr
    exact hname ▸ h.last hslot hin hr

theorem filterM_eq_some {α : Type} {f : α → Option Bool} {g : α → Bool} {l : List α}
    (h : ∀ x ∈ l, f x = some (g x)) : l.filterM f = some (l.filter g) := by
  -- what passes the test is collected in reverse
  suffices haux : ∀ (l acc : List α), (∀ x ∈ l, f x = some (g x)) →
      l.filterAuxM f acc = some ((l.filter g).reverse ++ acc) by
    rw [List.filterM, haux l [] h]
    simp
  intro l
  induction l with
  | nil => exact fun acc _ => rfl
  | cons x rest ih =>
    intro acc h
    rw [List.filterAuxM, h x List.mem_cons_self, List.filter_cons]
    have ih := fun acc => ih acc fun y hy => h y (List.mem_cons_of_mem _ hy)
    cases g x with
    | true => simp [ih]
    | false => simp [ih]

/-- The importer of every name is there. -/
theorem Consistent.importedNames?_eq (hb : b.Consistent) :
    b.importedNames? = some b.importedNames := by
  have hfilter : b.lists.toList.filterM (fun entry => do
      let importer ← entry.2[0]?
      let slot ← b.slots[importer]?
      return !slot.readers.isEmpty) =
      some (b.lists.toList.filter fun entry => (b.importer? entry.1).any b.isRead) := by
    refine filterM_eq_some fun entry hentry => ?_
    have hl := Std.TreeMap.mem_toList_iff_getElem?_eq_some.mp hentry
    have hids := slotsOf_of_lookup hl
    have hne : b.slotsOf entry.1 ≠ [] := fun hnil => hb.ne_nil entry.1 (by rw [hl, ← hids, hnil])
    obtain ⟨importer, rest, hcons, -⟩ := hb.exists_cons hne
    obtain ⟨slot, hslot, -⟩ := hb.stored_of_mem (show importer ∈ b.slotsOf entry.1 by simp [hcons])
    have hzero : entry.2[0]? = some importer := by rw [← hids, hcons]; rfl
    have himporter : b.importer? entry.1 = some importer := by rw [importer?, hcons]; rfl
    simp only [hzero, hslot, himporter, Option.any_some, isRead, Option.bind_eq_bind,
      Option.bind_some, Option.pure_def]
  unfold importedNames? importedNames names
  rw [hfilter, ← Std.TreeMap.map_fst_toList_eq_keys, List.filter_map]
  rfl

/-- After any run the table is in order, checking it finds no defect, and no access of a further
operation fails. -/
theorem run_wellFormed (calls : List BindingCall) :
    (run calls).WellFormed ∧ (run calls).check = .ok () ∧
      (∀ c, (run calls).call? c = some ((run calls).call c)) ∧
      (run calls).importedNames? = some (run calls).importedNames :=
  have h := consistent_run calls
  ⟨h.wellFormed, h.check_eq_ok, h.call?_eq, h.importedNames?_eq⟩

end Bindings

end MathCanvas
