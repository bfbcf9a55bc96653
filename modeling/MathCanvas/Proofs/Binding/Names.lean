import MathCanvas.Proofs.Binding.Parts

/-!
# Names come into use and go out of it

A name that comes into use has an importer and nothing else (`opened_openName`); a name that has
nothing but an importer without readers goes out of use (`vacated_closeName`). Whether it has
readers can be told from the readers alone (`Sound.isRead_iff`), because a list without definitions
leaves them only the importer to observe.
-/

namespace MathCanvas

namespace Bindings

variable {b b' : Bindings} {id : SlotId} {name : String} {slot : Slot}

/-- Whether there is a reader of a name. -/
def HasReader (b : Bindings) (name : String) : Prop :=
  ∃ (r : ReaderId) (reader : Reader), b.readers[r]? = some reader ∧ reader.name = name

/-- In a sound table, the importer of a list without definitions is read if the name is. -/
theorem Sound.isRead_iff (hb : b.Sound) {importer : SlotId} (h : b.slotsOf name = [importer]) :
    b.isRead importer = true ↔ b.HasReader name := by
  obtain ⟨slot, hslot, hname⟩ := hb.stored_of_mem
    (show importer ∈ b.slotsOf name by simp [h])
  have hread : b.isRead importer = true ↔ slot.readers ≠ [] := by
    rw [isRead, hslot]
    simp
  rw [hread]
  constructor
  · intro hne
    obtain ⟨r, hr⟩ := List.exists_mem_of_ne_nil _ hne
    obtain ⟨reader, hreader, hbound⟩ := hb.observes hslot hr
    obtain ⟨slot', hslot', hname', -⟩ := hb.held hreader
    rw [hbound, hslot] at hslot'
    cases hslot'
    exact ⟨r, reader, hreader, hname'.symm.trans hname⟩
  · rintro ⟨r, reader, hreader, rfl⟩
    have hmem := mem_of_lastUpTo? (hb.within hreader)
    rw [h, List.mem_singleton] at hmem
    obtain ⟨slot', hslot', -, hr⟩ := hb.held hreader
    rw [hmem, hslot] at hslot'
    cases hslot'
    exact List.ne_nil_of_mem hr

/-- A sound table is consistent if every list without definitions has a reader. -/
theorem Sound.consistent (hb : b.Sound)
    (h : ∀ (n : String) (importer : SlotId), b.slotsOf n = [importer] → b.HasReader n) :
    b.Consistent :=
  { hb with needed := fun hids => (hb.isRead_iff hids).mpr (h _ _ hids) }

theorem Consistent.hasReader (hb : b.Consistent) {importer : SlotId}
    (h : b.slotsOf name = [importer]) : b.HasReader name :=
  (hb.isRead_iff h).mp (hb.needed h)

/-! ### Into use -/

theorem openName_of_ne_nil {loose : Option SlotId} (hb : b.Listed loose)
    (h : b.slotsOf name ≠ []) : b.openName name = (b, []) := by
  unfold openName
  rw [if_pos ((contains_iff_slotsOf_ne_nil hb).mpr h)]

theorem openName_of_nil {loose : Option SlotId} (hb : b.Listed loose) (h : b.slotsOf name = []) :
    b.openName name =
      ({ b with
          lists := b.lists.insert name [b.nextId]
          slots := b.slots.insert b.nextId ⟨name, .importer, 0, .free, []⟩
          nextId := b.nextId + 1 },
        [name]) := by
  unfold openName
  rw [if_neg (fun hc => (contains_iff_slotsOf_ne_nil hb).mp hc h)]

/-- What bringing a name into use does. -/
structure Opened (b b' : Bindings) (name : String) (opened : List String) : Prop
    extends Sound b' where
  slotsOf : ∀ n : String, b'.slotsOf n =
    if n = name ∧ b.slotsOf name = [] then [b.nextId] else b.slotsOf n
  place : ∀ x, b'.place? x =
    if x = b.nextId ∧ b.slotsOf name = [] then some .importer else b.place? x
  value : ∀ x, b'.value? x = if x = b.nextId ∧ b.slotsOf name = [] then some .free else b.value? x
  readers : b'.readers = b.readers
  nextId : b'.nextId = if b.slotsOf name = [] then b.nextId + 1 else b.nextId
  opened : opened = if b.slotsOf name = [] then [name] else []

theorem Sound.slots_nextId (hb : b.Sound) : b.slots[b.nextId]? = none := by
  cases h : b.slots[b.nextId]? with
  | none => rfl
  | some slot => exact absurd (hb.slot_lt h) (Nat.lt_irrefl _)

theorem Sound.readers_nextId (hb : b.Sound) : b.readers[b.nextId]? = none := by
  cases h : b.readers[b.nextId]? with
  | none => rfl
  | some reader => exact absurd (hb.reader_lt h) (Nat.lt_irrefl _)

theorem Sound.nextId_not_mem (hb : b.Sound) (n : String) : b.nextId ∉ b.slotsOf n := by
  intro hmem
  obtain ⟨slot, hslot, -⟩ := hb.stored_of_mem hmem
  rw [hb.slots_nextId] at hslot
  cases hslot

/-- A slot with a new number leaves the claims as they are, if it has no readers. -/
theorem Claimed.of_insert_slot (hc : b.Claimed) (hfresh : b.slots[id]? = none)
    (hreaders : slot.readers = [])
    (hs : ∀ x : SlotId, b'.slots[x]? = if id = x then some slot else b.slots[x]?)
    (hr : ∀ r : ReaderId, b'.readers[r]? = b.readers[r]?) : b'.Claimed where
  held {r reader} hreader := by
    rw [hr] at hreader
    obtain ⟨s, hslot, hname, hin⟩ := hc.held hreader
    refine ⟨s, ?_, hname, hin⟩
    rw [hs, if_neg, hslot]
    rintro rfl
    rw [hfresh] at hslot
    cases hslot
  observes {x s r} hx hin := by
    rw [hs] at hx
    rw [hr]
    by_cases h : id = x
    · rw [if_pos h] at hx
      cases hx
      rw [hreaders] at hin
      cases hin
    · rw [if_neg h] at hx
      exact hc.observes hx hin
  nodup {x s} hx := by
    rw [hs] at hx
    by_cases h : id = x
    · rw [if_pos h] at hx
      cases hx
      rw [hreaders]
      exact List.nodup_nil
    · rw [if_neg h] at hx
      exact hc.nodup hx

theorem opened_openName (hb : b.Sound) (name : String) :
    Opened b (b.openName name).1 name (b.openName name).2 := by
  by_cases h : b.slotsOf name = []
  · rw [openName_of_nil hb.toListed h]
    set c : Bindings :=
      { b with
        lists := b.lists.insert name [b.nextId]
        slots := b.slots.insert b.nextId ⟨name, .importer, 0, .free, []⟩
        nextId := b.nextId + 1 } with hc
    have hslot : ∀ x, c.slots[x]? =
        if b.nextId = x then some ⟨name, .importer, 0, .free, []⟩ else b.slots[x]? :=
      fun x => lookup_insert _ _ _ _
    have hslotsOf : ∀ n, c.slotsOf n = if n = name then [b.nextId] else b.slotsOf n := by
      intro n
      rw [Bindings.slotsOf, hc, lookup_insert]
      by_cases hn : name = n
      · rw [if_pos hn, if_pos hn.symm, Option.getD_some]
      · rw [if_neg hn, if_neg (Ne.symm hn)]
        rfl
    have hplace : ∀ x, c.place? x = if x = b.nextId then some .importer else b.place? x := by
      intro x
      rw [place?, hslot]
      by_cases hx : b.nextId = x
      · rw [if_pos hx, if_pos hx.symm, Option.map_some]
      · rw [if_neg hx, if_neg (Ne.symm hx), place?]
    have hlisted : c.Listed none := by
      refine ⟨?_, ?_, ?_, by simp, ?_⟩
      · intro n hn
        rw [hc, lookup_insert] at hn
        by_cases heq : name = n
        · rw [if_pos heq] at hn
          cases hn
        · rw [if_neg heq] at hn
          exact hb.ne_nil n hn
      · intro n i x hx
        rw [hslotsOf] at hx
        by_cases hn : n = name
        · rw [if_pos hn] at hx
          obtain ⟨hi, rfl⟩ := List.getElem?_eq_some_iff.mp hx
          have hi : i = 0 := by simpa using hi
          subst hi
          rw [hslot]
          exact ⟨_, if_pos rfl, hn.symm, rfl, by simp⟩
        · rw [if_neg hn] at hx
          obtain ⟨s, hs, hrest⟩ := hb.stored hx
          refine ⟨s, ?_, hrest⟩
          rw [hslot, if_neg, hs]
          rintro rfl
          exact hb.nextId_not_mem n (List.mem_of_getElem? hx)
      · intro x s hx _
        rw [hslot] at hx
        rw [hslotsOf]
        by_cases hxid : b.nextId = x
        · rw [if_pos hxid] at hx
          cases hx
          rw [if_pos rfl, ← hxid]
          rfl
        · rw [if_neg hxid] at hx
          have hold := hb.listed hx (by simp)
          rw [if_neg, hold]
          rintro hname
          rw [hname, h] at hold
          cases hold
      · intro n
        rw [hslotsOf]
        by_cases hn : n = name
        · rw [if_pos hn]
          exact List.pairwise_singleton _ _
        · rw [if_neg hn]
          refine (hb.ordered n).imp_of_mem ?_
          intro x y hx hy hxy
          rw [hplace, hplace, if_neg (fun heq : x = b.nextId => hb.nextId_not_mem n (heq ▸ hx)),
            if_neg (fun heq : y = b.nextId => hb.nextId_not_mem n (heq ▸ hy))]
          exact hxy
    have hclaimed : c.Claimed :=
      hb.toClaimed.of_insert_slot hb.slots_nextId rfl hslot fun _ => rfl
    refine { hlisted, hclaimed with
      slot_lt := ?_, reader_lt := ?_, within := ?_, slotsOf := ?_, place := ?_, value := ?_
      readers := rfl, nextId := by rw [if_pos h], opened := by rw [if_pos h] }
    · intro x s hx
      rw [hslot] at hx
      by_cases hxid : b.nextId = x
      · rw [← hxid]
        exact Nat.lt_succ_self _
      · rw [if_neg hxid] at hx
        exact Nat.lt_succ_of_lt (hb.slot_lt hx)
    · intro r reader hr
      exact Nat.lt_succ_of_lt (hb.reader_lt hr)
    · intro r reader hr
      have hlast := hb.within (r := r) hr
      have hn : reader.name ≠ name := by
        rintro hn
        rw [hn, lastUpTo?, h] at hlast
        cases hlast
      rw [lastUpTo?, hslotsOf, if_neg hn, ← hlast, lastUpTo?]
      congr 1
      apply List.filter_congr
      intro x hx
      rw [isUpTo, isUpTo, hplace,
        if_neg (fun heq : x = b.nextId => hb.nextId_not_mem reader.name (heq ▸ hx))]
    · simpa [h] using hslotsOf
    · simpa [h] using hplace
    · intro x
      rw [value?, hslot]
      by_cases hx : b.nextId = x
      · rw [if_pos hx, if_pos ⟨hx.symm, h⟩, Option.map_some]
      · rw [if_neg hx, if_neg (fun hc => hx hc.1.symm), value?]
  · rw [openName_of_ne_nil hb.toListed h]
    exact { hb with
      slotsOf := fun n => by rw [if_neg (fun hc => h hc.2)]
      place := fun x => by rw [if_neg (fun hc => h hc.2)]
      value := fun x => by rw [if_neg (fun hc => h hc.2)]
      readers := rfl
      nextId := by rw [if_neg h]
      opened := by rw [if_neg h] }

/-- The name is in use then. -/
theorem Opened.ne_nil_of {opened : List String} (h : Opened b b' name opened) :
    b'.slotsOf name ≠ [] := by
  rw [h.slotsOf]
  by_cases hn : b.slotsOf name = []
  · rw [if_pos ⟨rfl, hn⟩]
    simp
  · rw [if_neg (fun hc => hn hc.2)]
    exact hn

/-! ### Out of use -/

/-- Whether a name is in use without need. -/
def Idle (b : Bindings) (name : String) : Prop :=
  ∃ importer, b.slotsOf name = [importer] ∧ ¬b.HasReader name

theorem closeName_of_not_idle (hb : b.Sound) (h : ¬b.Idle name) : b.closeName name = (b, []) := by
  unfold closeName
  split
  · rename_i importer hids
    rw [if_pos]
    rw [hb.isRead_iff hids]
    by_contra hread
    exact h ⟨importer, hids, hread⟩
  · rfl

/-- What putting a name out of use does. -/
structure Vacated (b b' : Bindings) (name : String) (importer : SlotId) : Prop
    extends Sound b' where
  slotsOf : ∀ n : String, b'.slotsOf n = if n = name then [] else b.slotsOf n
  place : ∀ x, b'.place? x = if x = importer then none else b.place? x
  value : ∀ x, b'.value? x = if x = importer then none else b.value? x
  readers : b'.readers = b.readers
  nextId : b'.nextId = b.nextId

theorem closeName_of_idle (hb : b.Sound) {importer : SlotId} (hids : b.slotsOf name = [importer])
    (hread : ¬b.HasReader name) :
    b.closeName name =
      ({ b with lists := b.lists.erase name, slots := b.slots.erase importer }, [name]) := by
  unfold closeName
  rw [hids]
  simp only
  rw [if_neg (fun h => hread ((hb.isRead_iff hids).mp h))]

theorem vacated_closeName (hb : b.Sound) {importer : SlotId} (hids : b.slotsOf name = [importer])
    (hread : ¬b.HasReader name) : Vacated b (b.closeName name).1 name importer := by
  rw [closeName_of_idle hb hids hread]
  set c : Bindings := { b with lists := b.lists.erase name, slots := b.slots.erase importer } with hc
  have hslot : ∀ x, c.slots[x]? = if importer = x then none else b.slots[x]? :=
    fun x => lookup_erase _ _ _
  have hslotsOf : ∀ n, c.slotsOf n = if n = name then [] else b.slotsOf n := by
    intro n
    rw [Bindings.slotsOf, hc, lookup_erase]
    by_cases hn : name = n
    · rw [if_pos hn, if_pos hn.symm, Option.getD_none]
    · rw [if_neg hn, if_neg (Ne.symm hn)]
      rfl
  have hplace : ∀ x, c.place? x = if x = importer then none else b.place? x := by
    intro x
    rw [place?, hslot]
    by_cases hx : importer = x
    · rw [if_pos hx, if_pos hx.symm, Option.map_none]
    · rw [if_neg hx, if_neg (Ne.symm hx), place?]
  have hother : ∀ {n : String} {x : SlotId}, n ≠ name → x ∈ b.slotsOf n → importer ≠ x := by
    rintro n x hn hx rfl
    obtain ⟨s, hs, hsname⟩ := hb.stored_of_mem hx
    obtain ⟨s', hs', hsname'⟩ := hb.stored_of_mem
      (show importer ∈ b.slotsOf name by simp [hids])
    rw [hs] at hs'
    cases hs'
    exact hn (hsname.symm.trans hsname')
  refine ⟨⟨⟨?_, ?_, ?_, by simp, ?_⟩, ⟨?_, ?_, ?_⟩, ⟨?_, ?_⟩, ?_⟩, hslotsOf, hplace, ?_, rfl, rfl⟩
  · intro n hn
    rw [hc, lookup_erase] at hn
    split at hn
    · cases hn
    · exact hb.ne_nil n hn
  · intro n i x hx
    rw [hslotsOf] at hx
    by_cases hn : n = name
    · rw [if_pos hn] at hx
      cases hx
    · rw [if_neg hn] at hx
      obtain ⟨s, hs, hrest⟩ := hb.stored hx
      refine ⟨s, ?_, hrest⟩
      rw [hslot, if_neg (hother hn (List.mem_of_getElem? hx)), hs]
  · intro x s hx _
    rw [hslot] at hx
    by_cases hxid : importer = x
    · rw [if_pos hxid] at hx
      cases hx
    · rw [if_neg hxid] at hx
      have hold := hb.listed hx (by simp)
      rw [hslotsOf, if_neg, hold]
      intro hname
      rw [hname, hids] at hold
      obtain ⟨hi, hget⟩ := List.getElem?_eq_some_iff.mp hold
      simp at hi
      simp [hi] at hget
      exact hxid hget
  · intro n
    rw [hslotsOf]
    by_cases hn : n = name
    · rw [if_pos hn]
      exact List.Pairwise.nil
    · rw [if_neg hn]
      refine (hb.ordered n).imp_of_mem ?_
      intro x y hx hy hxy
      rw [hplace, hplace, if_neg (Ne.symm (hother hn hx)), if_neg (Ne.symm (hother hn hy))]
      exact hxy
  · -- nobody observed the importer
    intro r reader hr
    obtain ⟨s, hs, hsname, hin⟩ := hb.held (r := r) hr
    refine ⟨s, ?_, hsname, hin⟩
    have hn : reader.name ≠ name := fun hn => hread ⟨r, reader, hr, hn⟩
    rw [hslot, if_neg (hother hn (mem_of_lastUpTo? (hb.within hr))), hs]
  · intro x s r hx hin
    rw [hslot] at hx
    split at hx
    · cases hx
    · exact hb.observes hx hin
  · intro x s hx
    rw [hslot] at hx
    split at hx
    · cases hx
    · exact hb.nodup hx
  · intro x s hx
    rw [hslot] at hx
    split at hx
    · cases hx
    · exact hb.slot_lt hx
  · intro r reader hr
    exact hb.reader_lt hr
  · intro r reader hr
    have hn : reader.name ≠ name := fun hn => hread ⟨r, reader, hr, hn⟩
    have hlast := hb.within (r := r) hr
    rw [lastUpTo?, hslotsOf, if_neg hn, ← hlast, lastUpTo?]
    congr 1
    apply List.filter_congr
    intro x hx
    rw [isUpTo, isUpTo, hplace, if_neg (Ne.symm (hother hn hx))]
  · intro x
    rw [value?, hslot]
    by_cases hx : importer = x
    · rw [if_pos hx, if_pos hx.symm, Option.map_none]
    · rw [if_neg hx, if_neg (Ne.symm hx), value?]

/-- After an operation that leaves at most one name without need, putting that name out of use
restores consistency. -/
theorem Sound.consistent_closeName (hb : b.Sound)
    (h : ∀ (n : String) (importer : SlotId), n ≠ name → b.slotsOf n = [importer] → b.HasReader n) :
    (b.closeName name).1.Consistent := by
  by_cases hidle : b.Idle name
  · obtain ⟨importer, hids, hread⟩ := hidle
    have hv := vacated_closeName hb hids hread
    refine hv.toSound.consistent fun n i hn => ?_
    rw [hv.slotsOf] at hn
    by_cases heq : n = name
    · rw [if_pos heq] at hn
      cases hn
    · rw [if_neg heq] at hn
      obtain ⟨r, reader, hr, hname⟩ := h n i heq hn
      exact ⟨r, reader, by rw [hv.readers]; exact hr, hname⟩
  · rw [closeName_of_not_idle hb hidle]
    refine hb.consistent fun n i hn => ?_
    by_cases heq : n = name
    · subst heq
      by_contra hread
      exact hidle ⟨i, hn, hread⟩
    · exact h n i heq hn

end Bindings

end MathCanvas
