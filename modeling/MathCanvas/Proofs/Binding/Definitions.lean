import MathCanvas.Proofs.Binding.Attach
import MathCanvas.Proofs.Binding.Names

/-!
# Definitions are added, moved and removed

For each operation on definitions, what it does to a consistent table: the lists, places and values
afterwards, that the table is consistent again, and that the readers that observe another value are
those that have to be told (`Reports`).
-/

namespace MathCanvas

namespace Bindings

variable {b b' : Bindings} {id : SlotId} {name : String} {p : Position} {slot : Slot}

theorem hasReader_iff_anchor? :
    b.HasReader name ↔ ∃ (r : ReaderId) (p : Position), b.anchor? r = some (name, p) := by
  constructor
  · rintro ⟨r, reader, hr, rfl⟩
    exact ⟨r, reader.position, by rw [anchor?, hr, Option.map_some, Reader.anchor]⟩
  · rintro ⟨r, p, h⟩
    obtain ⟨reader, hr, heq⟩ := Option.map_eq_some_iff.mp h
    simp only [Reader.anchor, Prod.mk.injEq] at heq
    exact ⟨r, reader, hr, heq.1⟩

/-! ### Adding -/

/-- The bindings with a new slot that is in no list. -/
def withLoose (b : Bindings) (slot : Slot) : Bindings :=
  { b with slots := b.slots.insert b.nextId slot, nextId := b.nextId + 1 }

theorem lookup_slots_withLoose (x : SlotId) :
    (b.withLoose slot).slots[x]? = if b.nextId = x then some slot else b.slots[x]? :=
  lookup_insert _ _ _ _

theorem lookup_slots_withLoose_self (slot : Slot) :
    (b.withLoose slot).slots[b.nextId]? = some slot := by
  rw [lookup_slots_withLoose, if_pos rfl]

section WithLoose

variable (hb : b.Sound)
include hb

theorem place?_withLoose_of_mem {n : String} {x : SlotId} (hx : x ∈ b.slotsOf n) :
    (b.withLoose slot).place? x = b.place? x := by
  rw [place?, lookup_slots_withLoose, if_neg, place?]
  rintro rfl
  exact hb.nextId_not_mem n hx

theorem listed_withLoose : (b.withLoose slot).Listed (some b.nextId) where
  ne_nil := hb.ne_nil
  stored {n i x} hx := by
    obtain ⟨s, hs, hrest⟩ := hb.stored hx
    refine ⟨s, ?_, hrest⟩
    rw [lookup_slots_withLoose, if_neg, hs]
    rintro rfl
    exact hb.nextId_not_mem n (List.mem_of_getElem? hx)
  listed {x s} hx hl := by
    rw [lookup_slots_withLoose, if_neg (by simpa using hl)] at hx
    exact hb.listed hx (by simp)
  not_mem_of_loose {x} hx n := by
    cases hx
    exact hb.nextId_not_mem n
  ordered n := by
    refine (hb.ordered n).imp_of_mem ?_
    intro x y hx hy hxy
    rw [place?_withLoose_of_mem hb hx, place?_withLoose_of_mem hb hy]
    exact hxy

theorem within_withLoose : (b.withLoose slot).Within := by
  intro r reader hr
  rw [← hb.within (r := r) hr, lastUpTo?, lastUpTo?]
  congr 1
  apply List.filter_congr
  intro x hx
  rw [isUpTo, isUpTo, place?_withLoose_of_mem hb hx]

theorem numbered_withLoose : (b.withLoose slot).Numbered where
  slot_lt {x s} hx := by
    rw [lookup_slots_withLoose] at hx
    by_cases h : b.nextId = x
    · rw [← h]
      exact Nat.lt_succ_self _
    · rw [if_neg h] at hx
      exact Nat.lt_succ_of_lt (hb.slot_lt hx)
  reader_lt {r reader} hr := Nat.lt_succ_of_lt (hb.reader_lt hr)

/-- No reader observes the new slot. -/
theorem readerValue?_withLoose (r : ReaderId) :
    (b.withLoose slot).readerValue? r = b.readerValue? r := by
  unfold readerValue? binding?
  rw [show (b.withLoose slot).readers = b.readers from rfl]
  cases hr : b.readers[r]? with
  | none => rfl
  | some reader =>
    obtain ⟨s, hs, -⟩ := hb.held hr
    rw [Option.map_some, Option.bind_some, Option.bind_some, value?, value?,
      lookup_slots_withLoose, if_neg]
    rintro heq
    rw [← heq, hb.slots_nextId] at hs
    cases hs

end WithLoose

/-- What adding a definition does to a table in which its name is in use. -/
structure Added (b b' : Bindings) (id : SlotId) (name : String) (p : Position) : Prop
    extends Consistent b' where
  fresh : id = b.nextId
  insertion : ∃ l₁ before l₂, Insertion b b' id name p l₁ before l₂ ∧
    ∀ y ∈ l₂, b.isUpTo (.placed p) y = false
  value : ∀ x, b'.value? x = if x = id then some .unset else b.value? x
  anchor : ∀ r : ReaderId, b'.anchor? r = b.anchor? r
  nextId : b'.nextId = b.nextId + 1

/-- The new slot is put into the list of its name. -/
theorem attached_withLoose (hb : b.Sound) (hne : b.slotsOf name ≠ []) (p : Position)
    {c : Bindings} (hc : c = b.withLoose ⟨name, .placed p, 0, .unset, []⟩) :
    Attached c (c.attach b.nextId name p).1 b.nextId name p (c.attach b.nextId name p).2 := by
  have hslot : c.slots[b.nextId]? = some ⟨name, .placed p, 0, .unset, []⟩ := by
    rw [hc, lookup_slots_withLoose, if_pos rfl]
  have hlisted : c.Listed (some b.nextId) := hc ▸ listed_withLoose hb
  have hclaimed : c.Claimed := by
    rw [hc]
    exact hb.toClaimed.of_insert_slot hb.slots_nextId rfl lookup_slots_withLoose fun _ => rfl
  have hcs : ∀ n, c.slotsOf n = b.slotsOf n := fun n => by rw [hc]; rfl
  exact attached hlisted hclaimed (hc ▸ within_withLoose hb) hslot (by rw [hcs]; exact hne) p

theorem value?_attach_withLoose (hb : b.Sound) (hne : b.slotsOf name ≠ []) (p : Position)
    {c : Bindings} (hc : c = b.withLoose ⟨name, .placed p, 0, .unset, []⟩) (x : SlotId) :
    (c.attach b.nextId name p).1.value? x = if x = b.nextId then some .unset else b.value? x := by
  rw [(attached_withLoose hb hne p hc).rebound.value, hc, value?, lookup_slots_withLoose]
  by_cases hx : b.nextId = x
  · rw [if_pos hx, if_pos hx.symm, Option.map_some]
  · rw [if_neg hx, if_neg (Ne.symm hx), value?]

theorem added_attach (hb : b.Sound) (hne : b.slotsOf name ≠ [])
    (hneed : ∀ (n : String) (i : SlotId), n ≠ name → b.slotsOf n = [i] → b.HasReader n)
    (p : Position) {c : Bindings} (hc : c = b.withLoose ⟨name, .placed p, 0, .unset, []⟩) :
    Added b (c.attach b.nextId name p).1 b.nextId name p ∧
      Reports b (c.attach b.nextId name p).1
        ((c.attach b.nextId name p).1.affected (c.attach b.nextId name p).2) := by
  have hcs : ∀ n, c.slotsOf n = b.slotsOf n := fun n => by rw [hc]; rfl
  have hatt := attached_withLoose hb hne p hc
  set d := (c.attach b.nextId name p).1 with hd
  obtain ⟨l₁, before, l₂, hins, hafter⟩ := hatt.insertion
  have hplace : ∀ x, x ≠ b.nextId → c.place? x = b.place? x := by
    intro x hx
    rw [hc, place?, lookup_slots_withLoose, if_neg (Ne.symm hx), place?]
  have hmem : ∀ {x}, x ∈ l₁ ++ [before] ∨ x ∈ l₂ → x ≠ b.nextId := by
    rintro x hx rfl
    apply hins.not_mem name
    rw [hins.without]
    simp only [List.mem_append, List.mem_cons, List.not_mem_nil, or_false] at hx ⊢
    tauto
  have hinsertion : Insertion b d b.nextId name p l₁ before l₂ :=
    ⟨by rw [← hcs, hins.without], fun n => by rw [hins.slotsOf, hcs],
      fun x => by
        rw [hins.place]
        by_cases hx : x = b.nextId
        · rw [if_pos hx, if_pos hx]
        · rw [if_neg hx, if_neg hx, hplace x hx],
      fun x hx => by
        rw [isUpTo, ← hplace x (hmem (.inl hx))]
        exact hins.upTo x hx,
      hb.nodup_slotsOf name, hb.nextId_not_mem⟩
  have hanchor : ∀ r, d.anchor? r = b.anchor? r := by
    intro r
    rw [hatt.rebound.anchor, hc]
    rfl
  have hsound : d.Sound :=
    { hatt.toListed, hatt.toClaimed, hatt.rebound.numbered (hc ▸ numbered_withLoose hb) with
      within := hatt.within }
  have hconsistent : d.Consistent := by
    refine hsound.consistent fun n i hn => ?_
    rw [hasReader_iff_anchor?]
    simp only [hanchor]
    rw [← hasReader_iff_anchor?]
    rw [hinsertion.slotsOf] at hn
    by_cases heq : n = name
    · rw [if_pos heq] at hn
      have hlength := congrArg List.length hn
      rw [List.length_append, List.length_cons, List.length_cons, List.length_singleton] at hlength
      omega
    · rw [if_neg heq] at hn
      exact hneed n i heq hn
  refine ⟨{ hconsistent with
    fresh := rfl
    insertion := ⟨l₁, before, l₂, hinsertion, fun y hy => ?_⟩
    value := value?_attach_withLoose hb hne p hc
    anchor := hanchor
    nextId := by rw [hatt.rebound.nextId, hc]; rfl }, ?_⟩
  · rw [isUpTo, ← hplace y (hmem (.inr hy))]
    exact hafter y hy
  · have hvalues : ∀ r, c.readerValue? r = b.readerValue? r := fun r => by
      rw [hc, readerValue?_withLoose hb]
    have hreports := hatt.rebound.reports fun _ _ => id
    exact hreports.of_readerValue?_eq hvalues

/-- Bringing a name into use changes no value that is observed. -/
theorem Opened.readerValue?_eq {c : Bindings} {opened : List String} (hb : b.Sound)
    (h : Opened b c name opened) (r : ReaderId) : c.readerValue? r = b.readerValue? r := by
  rw [readerValue?, readerValue?, binding?, h.readers, ← binding?]
  cases hbinding : b.binding? r with
  | none => rfl
  | some x =>
    obtain ⟨reader, hreader, rfl⟩ := Option.map_eq_some_iff.mp hbinding
    obtain ⟨slot, hslot, -⟩ := hb.held hreader
    rw [Option.bind_some, Option.bind_some, h.value, if_neg]
    rintro ⟨heq, -⟩
    rw [heq, hb.slots_nextId] at hslot
    cases hslot

/-- Adding a definition brings its name into use, and then puts the definition in. -/
theorem addDefinition_spec (hb : b.Consistent) (name : String) (p : Position) :
    ∃ c opened, Opened b c name opened ∧
      Added c (b.addDefinition name p).2.2 (b.addDefinition name p).1 name p ∧
      (b.addDefinition name p).2.1.opened = opened ∧
      (b.addDefinition name p).2.1.closed = [] ∧
      Reports b (b.addDefinition name p).2.2 (b.addDefinition name p).2.1.readers := by
  have ho := opened_openName hb.toSound name
  obtain ⟨hadded, hreports⟩ := added_attach ho.toSound ho.ne_nil_of
    (fun n i hn hids => by
      rw [ho.slotsOf, if_neg (fun h => hn h.1)] at hids
      obtain ⟨r, reader, hr, hname⟩ := hb.hasReader hids
      exact ⟨r, reader, by rw [ho.readers]; exact hr, hname⟩) p rfl
  exact ⟨_, _, ho, hadded, rfl, rfl, hreports.of_readerValue?_eq (ho.readerValue?_eq hb.toSound)⟩

/-- Those who are told of a new definition observe it, and it has no value yet. -/
theorem readerValue?_of_mem_addDefinition (hb : b.Consistent) {r : ReaderId}
    (hr : r ∈ (b.addDefinition name p).2.1.readers) :
    (b.addDefinition name p).2.2.readerValue? r = some .unset := by
  have ho := opened_openName hb.toSound name
  obtain ⟨before, now, hnoted, -⟩ := mem_affected.mp hr
  have hbinding : (b.addDefinition name p).2.2.binding? r = some (b.openName name).1.nextId :=
    (attached_withLoose ho.toSound ho.ne_nil_of p rfl).noted hnoted
  have hvalue : (b.addDefinition name p).2.2.value? (b.openName name).1.nextId = some .unset :=
    (value?_attach_withLoose ho.toSound ho.ne_nil_of p rfl _).trans (if_pos rfl)
  rw [readerValue?, hbinding, Option.bind_some, hvalue]

/-! ### Moving -/

/-- What moving a definition to another position does: it is taken out and put in again. -/
structure Moved (b b' : Bindings) (id : SlotId) (name : String) (p : Position) : Prop
    extends Consistent b' where
  insertions : ∃ (c : Bindings) (old : Position) (l₁ : List SlotId) (before : SlotId)
    (l₂ m₁ : List SlotId) (before' : SlotId) (m₂ : List SlotId),
    Insertion c b id name old l₁ before l₂ ∧ Insertion c b' id name p m₁ before' m₂ ∧
      ∀ y ∈ m₂, c.isUpTo (.placed p) y = false
  value : ∀ x, b'.value? x = b.value? x
  anchor : ∀ r : ReaderId, b'.anchor? r = b.anchor? r
  nextId : b'.nextId = b.nextId

theorem moveDefinition_of_none (h : b.slots[id]? = none) : b.moveDefinition id p = ({}, b) := by
  rw [moveDefinition, h]

theorem moveDefinition_of_importer (h : b.slots[id]? = some slot) (hp : slot.place = .importer) :
    b.moveDefinition id p = ({}, b) := by
  rw [moveDefinition, h]
  simp only [hp]

theorem moveDefinition_of_same (h : b.slots[id]? = some slot) {old : Position}
    (hp : slot.place = .placed old) (hsame : old.same p = true) :
    b.moveDefinition id p = ({}, b) := by
  rw [moveDefinition, h]
  simp only [hp, hsame, if_true]

/-- A move of a list does not change whether a name has a list with definitions. -/
theorem Consistent.of_moved {c : Bindings} {old : Position} {l₁ l₂ m₁ m₂ : List SlotId}
    {before before' : SlotId} {former : Former} (hb : b.Consistent) (hb' : b'.Sound)
    (hins : Insertion c b id name old l₁ before l₂)
    (hins' : Insertion c b' id name p m₁ before' m₂) (hr : Rebound b b' former) :
    b'.Consistent := by
  refine hb'.consistent fun n i hn => ?_
  rw [hasReader_iff_anchor?]
  simp only [hr.anchor]
  rw [← hasReader_iff_anchor?]
  rw [hins'.slotsOf] at hn
  by_cases heq : n = name
  · rw [if_pos heq] at hn
    have hlength := congrArg List.length hn
    rw [List.length_append, List.length_cons, List.length_cons, List.length_singleton] at hlength
    omega
  · rw [if_neg heq] at hn
    have hi : b.slotsOf n = [i] := by rw [hins.slotsOf, if_neg heq, hn]
    exact hb.hasReader hi

theorem moveDefinition_spec (hb : b.Consistent) (h : b.slots[id]? = some slot) {old : Position}
    (hp : slot.place = .placed old) (hsame : old.same p = false) :
    Moved b (b.moveDefinition id p).2 id slot.name p ∧
      (b.moveDefinition id p).1.opened = [] ∧ (b.moveDefinition id p).1.closed = [] ∧
      Reports b (b.moveDefinition id p).2 (b.moveDefinition id p).1.readers := by
  obtain ⟨l₁, before, l₂, hids, hindex⟩ := hb.exists_before h (by simp) (by simp [hp])
  have hplace? : b.place? id = some (.placed old) := by rw [place?, h, Option.map_some, hp]
  have hne : ¬(old ≤ p ∧ p ≤ old) := by
    rw [← Position.same_iff, hsame]
    simp
  by_cases hstays : b.staysBetween slot (.placed p) = true
  · -- the neighbours stay
    have hbefore : (b.slotsOf slot.name)[slot.index - 1]? = some before := by
      rw [hindex, hids]
      simp
    have hout := insertion_excised hb.toListed hplace? hids
    have hin := insertion_shifted hb.toListed slot hids hplace?
      ((staysBetween_iff hids hindex _).mp hstays).1
    have hlate : ∀ y ∈ l₂, (b.excised slot.name (l₁.length + 1)).isUpTo (.placed p) y = false :=
      hb.toListed.after_of_staysBetween hids hindex hstays
    have main : ∀ (source target : SlotId) (select : Position → Bool),
        Shifted b ((b.shifted id slot p).handOver source target select).1 id p
          ((b.shifted id slot p).handOver source target select).2 →
        b.moveDefinition id p =
          ({ readers := ((b.shifted id slot p).handOver source target select).1.affected
              ((b.shifted id slot p).handOver source target select).2 },
            ((b.shifted id slot p).handOver source target select).1) →
        Moved b (b.moveDefinition id p).2 id slot.name p ∧
          (b.moveDefinition id p).1.opened = [] ∧ (b.moveDefinition id p).1.closed = [] ∧
          Reports b (b.moveDefinition id p).2 (b.moveDefinition id p).1.readers := by
      intro source target select hshift heq
      rw [heq]
      have hin' : Insertion (b.excised slot.name (l₁.length + 1))
          ((b.shifted id slot p).handOver source target select).1 id slot.name p l₁ before l₂ :=
        { hin with
          slotsOf := fun n => by rw [hshift.slotsOf, hout.slotsOf]
          place := fun x => by rw [hshift.place, place?_excised] }
      have hsound : ((b.shifted id slot p).handOver source target select).1.Sound :=
        { hshift.toListed, hshift.toClaimed, hshift.rebound.numbered hb.toNumbered with
          within := hshift.within }
      exact ⟨{ hb.of_moved hsound hout hin' hshift.rebound with
        insertions := ⟨_, _, _, _, _, _, _, _, hout, hin', hlate⟩
        value := hshift.rebound.value
        anchor := hshift.rebound.anchor
        nextId := hshift.rebound.nextId }, rfl, rfl, hshift.rebound.reports fun _ _ h => h⟩
    by_cases hlt : p < old
    · refine main before id (fun q => decide (p ≤ q)) ?_ ?_
      · refine shifted_handOver hb.toListed hb.toClaimed hb.within h hp hids hindex hstays
          (.inl ⟨rfl, rfl⟩) fun q => ?_
        by_cases hq : old ≤ q
        · have hpq : p ≤ q := Position.le_trans (Position.le_of_lt hlt) hq
          simp [hq, hpq]
        · simp [hq]
      · simp only [moveDefinition, h, hp, hsame, hstays, hbefore, hlt, if_true, Bool.false_eq_true,
          if_false, shifted]
    · have hlt' : old < p := by
        rw [← Position.not_le]
        intro hle
        exact hne ⟨Position.not_lt.mp hlt, hle⟩
      refine main id before (fun q => decide (q < p)) ?_ ?_
      · refine shifted_handOver hb.toListed hb.toClaimed hb.within h hp hids hindex hstays
          (.inr ⟨rfl, rfl⟩) fun q => ?_
        by_cases hq : old ≤ q
        · by_cases hpq : p ≤ q
          · have hnot : ¬q < p := Position.not_lt.mpr hpq
            simp [hq, hpq, hnot]
          · have hqp : q < p := Position.not_le.mp hpq
            simp [hq, hpq, hqp]
        · have hpq : ¬p ≤ q := fun hpq => hq (Position.le_trans (Position.le_of_lt hlt') hpq)
          simp [hq, hpq]
      · simp only [moveDefinition, h, hp, hsame, hstays, hbefore, hlt, if_true, Bool.false_eq_true,
          if_false, shifted]
  · -- the definition is taken out and put in
    have hd := detached hb.toListed hb.toClaimed hb.within h hp
    obtain ⟨s, hs, hsname⟩ := hd.loose_stored
    obtain ⟨p', k₁, before', k₂, hout⟩ := hd.insertion
    set d := (b.detach id slot).1 with hdd
    have hatt := attached hd.toListed hd.toClaimed hd.within hs (by
      rw [hsname, hout.without]
      simp) p
    rw [hsname] at hatt
    obtain ⟨m₁, before'', m₂, hin, hlate⟩ := hatt.insertion
    have heq : b.moveDefinition id p =
        ({ readers := (d.attach id slot.name p).1.affected
            ((b.detach id slot).2 ++ (d.attach id slot.name p).2) },
          (d.attach id slot.name p).1) := by
      simp only [moveDefinition, h, hp, hsame, hstays, Bool.false_eq_true, if_false, hdd]
    have hrebound := hd.rebound.trans hatt.rebound
    have hsound : (d.attach id slot.name p).1.Sound :=
      { hatt.toListed, hatt.toClaimed, hrebound.numbered hb.toNumbered with
        within := hatt.within }
    rw [heq]
    exact ⟨{ hb.of_moved hsound hout hin hrebound with
      insertions := ⟨_, _, _, _, _, _, _, _, hout, hin, hlate⟩
      value := hrebound.value
      anchor := hrebound.anchor
      nextId := hrebound.nextId }, rfl, rfl, hrebound.reports fun _ _ h => h⟩

/-! ### Removing -/

/-- A loose slot can be thrown away: no reader observes it. -/
theorem sound_erase_loose (hl : b.Listed (some id)) (hc : b.Claimed) (hn : b.Numbered)
    (hw : b.Within) : ({ b with slots := b.slots.erase id } : Bindings).Sound := by
  have hne : ∀ {n : String} {x : SlotId}, x ∈ b.slotsOf n → id ≠ x := by
    rintro n x hx rfl
    exact hl.not_mem_of_loose rfl n hx
  set c : Bindings := { b with slots := b.slots.erase id } with hcdef
  have hslot : ∀ x, c.slots[x]? = if id = x then none else b.slots[x]? :=
    fun x => lookup_erase _ _ _
  have hsome : ∀ {x : SlotId} {s : Slot}, c.slots[x]? = some s →
      id ≠ x ∧ b.slots[x]? = some s := by
    intro x s hx
    rw [hslot] at hx
    by_cases h : id = x
    · rw [if_pos h] at hx
      cases hx
    · rw [if_neg h] at hx
      exact ⟨h, hx⟩
  have hplace : ∀ {n : String} {x : SlotId}, x ∈ b.slotsOf n → c.place? x = b.place? x := by
    intro n x hx
    rw [place?, hslot, if_neg (hne hx), place?]
  refine ⟨⟨hl.ne_nil, ?_, ?_, by simp, ?_⟩, ⟨?_, ?_, ?_⟩, ⟨?_, fun hr => hn.reader_lt hr⟩, ?_⟩
  · intro n i x hx
    obtain ⟨s, hs, hrest⟩ := hl.stored hx
    refine ⟨s, ?_, hrest⟩
    rw [hslot, if_neg (hne (List.mem_of_getElem? hx)), hs]
  · intro x s hx _
    obtain ⟨hxid, hx⟩ := hsome hx
    exact hl.listed hx (by simpa using hxid)
  · intro n
    refine (hl.ordered n).imp_of_mem ?_
    intro x y hx hy hxy
    rw [hplace hx, hplace hy]
    exact hxy
  · intro r reader hr
    obtain ⟨s, hs, hsname, hin⟩ := hc.held (r := r) hr
    refine ⟨s, ?_, hsname, hin⟩
    rw [hslot, if_neg (hne (mem_of_lastUpTo? (hw hr))), hs]
  · intro x s r hx hin
    exact hc.observes (hsome hx).2 hin
  · intro x s hx
    exact hc.nodup (hsome hx).2
  · intro x s hx
    exact hn.slot_lt (hsome hx).2
  · intro r reader hr
    rw [← hw (r := r) hr, lastUpTo?, lastUpTo?]
    congr 1
    apply List.filter_congr
    intro x hx
    rw [isUpTo, isUpTo, hplace hx]

/-- What removing a definition does before its name is put out of use. -/
structure Removed (b b' : Bindings) (id : SlotId) (name : String) : Prop extends Sound b' where
  slotsOf : ∃ l₁ before l₂, b.slotsOf name = l₁ ++ before :: id :: l₂ ∧
    ∀ n : String, b'.slotsOf n = if n = name then l₁ ++ before :: l₂ else b.slotsOf n
  place : ∀ x, b'.place? x = if x = id then none else b.place? x
  value : ∀ x, b'.value? x = if x = id then none else b.value? x
  anchor : ∀ r : ReaderId, b'.anchor? r = b.anchor? r
  nextId : b'.nextId = b.nextId

theorem removeDefinition_of_none (h : b.slots[id]? = none) : b.removeDefinition id = ({}, b) := by
  rw [removeDefinition, h]

theorem removeDefinition_of_importer (h : b.slots[id]? = some slot) (hp : slot.place = .importer) :
    b.removeDefinition id = ({}, b) := by
  rw [removeDefinition, h]
  simp only [hp]

/-- A table from which slots were removed gives no reader a value that it had not before. -/
theorem readerValue?_of_value?_le (hr : b'.readers = b.readers)
    (hv : ∀ (x : SlotId) (v : SlotValue), b'.value? x = some v → b.value? x = some v)
    (r : ReaderId) (now : SlotValue) (h : b'.readerValue? r = some now) :
    b.readerValue? r = some now := by
  obtain ⟨x, hx, hvalue⟩ := Option.bind_eq_some_iff.mp h
  rw [readerValue?, binding?, ← hr, ← binding?, hx, Option.bind_some]
  exact hv x now hvalue

theorem value?_closeName_le (hb : b.Sound) {x : SlotId} {v : SlotValue}
    (h : (b.closeName name).1.value? x = some v) : b.value? x = some v := by
  by_cases hidle : b.Idle name
  · obtain ⟨importer, hids, hread⟩ := hidle
    rw [(vacated_closeName hb hids hread).value] at h
    split at h
    · cases h
    · exact h
  · rwa [closeName_of_not_idle hb hidle] at h

theorem readers_closeName (hb : b.Sound) (name : String) :
    (b.closeName name).1.readers = b.readers := by
  by_cases hidle : b.Idle name
  · obtain ⟨importer, hids, hread⟩ := hidle
    exact (vacated_closeName hb hids hread).readers
  · rw [closeName_of_not_idle hb hidle]

/-- Removing a definition takes it out, and then puts its name out of use if it can be. -/
theorem removeDefinition_spec (hb : b.Consistent) (h : b.slots[id]? = some slot)
    (hp : slot.place ≠ .importer) :
    ∃ c, Removed b c id slot.name ∧
      (b.removeDefinition id).2 = (c.closeName slot.name).1 ∧
      (b.removeDefinition id).2.Consistent ∧
      (b.removeDefinition id).1.opened = [] ∧
      (b.removeDefinition id).1.closed = (c.closeName slot.name).2 ∧
      Reports b (b.removeDefinition id).2 (b.removeDefinition id).1.readers := by
  obtain ⟨old, hold⟩ : ∃ old, slot.place = .placed old := by
    cases hplace : slot.place with
    | importer => exact absurd hplace hp
    | placed old => exact ⟨old, rfl⟩
  have hd := detached hb.toListed hb.toClaimed hb.within h hold
  obtain ⟨p', l₁, before, l₂, hout⟩ := hd.insertion
  set d := (b.detach id slot).1 with hdd
  set c : Bindings := { d with slots := d.slots.erase id } with hc
  have heq : b.removeDefinition id =
      ({ readers := (c.closeName slot.name).1.affected (b.detach id slot).2,
          closed := (c.closeName slot.name).2 }, (c.closeName slot.name).1) := by
    simp only [removeDefinition, h, hold, hdd, hc]
  have hsound : c.Sound := sound_erase_loose hd.toListed hd.toClaimed
    (hd.rebound.numbered hb.toNumbered) hd.within
  have hslot : ∀ x, c.slots[x]? = if id = x then none else d.slots[x]? :=
    fun x => lookup_erase _ _ _
  have hslots : ∀ n, c.slotsOf n = if n = slot.name then l₁ ++ before :: l₂ else b.slotsOf n := by
    intro n
    rw [show c.slotsOf n = d.slotsOf n from rfl]
    by_cases hn : n = slot.name
    · rw [if_pos hn, hn, hout.without]
    · rw [if_neg hn, hout.slotsOf, if_neg hn]
  have hremoved : Removed b c id slot.name :=
    { hsound with
      slotsOf := ⟨l₁, before, l₂, by rw [hout.slotsOf, if_pos rfl], hslots⟩
      place := fun x => by
        rw [place?, hslot]
        by_cases hx : id = x
        · rw [if_pos hx, if_pos hx.symm, Option.map_none]
        · rw [if_neg hx, if_neg (Ne.symm hx), hout.place, if_neg (Ne.symm hx), place?]
      value := fun x => by
        rw [value?, hslot]
        by_cases hx : id = x
        · rw [if_pos hx, if_pos hx.symm, Option.map_none]
        · rw [if_neg hx, if_neg (Ne.symm hx), ← hd.rebound.value, value?]
      anchor := hd.rebound.anchor
      nextId := hd.rebound.nextId }
  rw [heq]
  refine ⟨c, hremoved, rfl, ?_, rfl, rfl, hd.rebound.reports ?_⟩
  · refine hsound.consistent_closeName fun n i hn hids => ?_
    rw [hslots, if_neg hn] at hids
    rw [hasReader_iff_anchor?]
    simp only [hremoved.anchor]
    rw [← hasReader_iff_anchor?]
    exact hb.hasReader hids
  · refine readerValue?_of_value?_le (readers_closeName hsound _) fun x v hx => ?_
    have hcx := value?_closeName_le hsound hx
    rw [value?, hslot] at hcx
    split at hcx
    · cases hcx
    · exact hcx

/-! ### Values -/

/-- What giving a slot a value does. -/
structure Written (b b' : Bindings) (id : SlotId) (v : SlotValue) : Prop
    extends Consistent b' where
  slotsOf : ∀ n : String, b'.slotsOf n = b.slotsOf n
  place : ∀ x, b'.place? x = b.place? x
  value : ∀ x, b'.value? x = if x = id then some v else b.value? x
  readers : b'.readers = b.readers
  nextId : b'.nextId = b.nextId

theorem setValue_of_none (h : b.slots[id]? = none) (v : SlotValue) :
    b.setValue id v = ({}, b) := by
  rw [setValue, h]

theorem setValue_of_valueEq (h : b.slots[id]? = some slot) {v : SlotValue}
    (hv : slot.value.valueEq v = true) : b.setValue id v = ({}, b) := by
  rw [setValue, h]
  simp only [hv, if_true]

theorem setValue_spec (hb : b.Consistent) (h : b.slots[id]? = some slot) {v : SlotValue}
    (hv : slot.value.valueEq v = false) :
    Written b (b.setValue id v).2 id v ∧
      (b.setValue id v).1.opened = [] ∧ (b.setValue id v).1.closed = [] ∧
      Reports b (b.setValue id v).2 (b.setValue id v).1.readers := by
  have heq : b.setValue id v = ({ readers := b.sortReaders slot.readers },
      { b with slots := b.slots.insert id { slot with value := v } }) := by
    simp only [setValue, h, hv, Bool.false_eq_true, if_false]
  rw [heq]
  set c : Bindings := { b with slots := b.slots.insert id { slot with value := v } } with hc
  have hslot : ∀ x, c.slots[x]? = if id = x then some { slot with value := v } else b.slots[x]? :=
    fun x => lookup_insert _ _ _ _
  have hsome : ∀ {α : Type} (f : Slot → α), f { slot with value := v } = f slot → ∀ x : SlotId,
      (c.slots[x]?).map f = (b.slots[x]?).map f := by
    intro α f hf x
    rw [hslot]
    by_cases hx : id = x
    · rw [if_pos hx, ← hx, h, Option.map_some, Option.map_some, hf]
    · rw [if_neg hx]
  have hplace : ∀ x, c.place? x = b.place? x := hsome Slot.place rfl
  have hvalue : ∀ x, c.value? x = if x = id then some v else b.value? x := by
    intro x
    rw [value?, hslot]
    by_cases hx : id = x
    · rw [if_pos hx, if_pos hx.symm, Option.map_some]
    · rw [if_neg hx, if_neg (Ne.symm hx), value?]
  have hslots : ∀ n, c.slotsOf n = b.slotsOf n := fun _ => rfl
  have hlisted : c.Listed none := hb.toListed.of_eq (fun _ => rfl)
    (hsome (fun slot => (slot.name, slot.place, slot.index)) rfl)
  have hclaimed : c.Claimed := hb.toClaimed.of_eq
    (hsome (fun slot => (slot.name, slot.readers)) rfl) fun _ => rfl
  have hsound : c.Sound := { hlisted, hclaimed with
    slot_lt := fun {x s} hx => by
      rw [hslot] at hx
      by_cases hxid : id = x
      · rw [← hxid]
        exact hb.slot_lt h
      · rw [if_neg hxid] at hx
        exact hb.slot_lt hx
    reader_lt := fun hr => hb.reader_lt hr
    within := fun {r reader} hr => by
      rw [lastUpTo?_congr (hslots _) hplace]
      exact hb.within hr }
  refine ⟨{ hsound.consistent fun n i hn => ?_ with
    slotsOf := hslots
    place := hplace
    value := hvalue
    readers := rfl
    nextId := rfl }, rfl, rfl, ?_⟩
  · exact hb.hasReader hn
  · have hbinding : ∀ r, c.binding? r = b.binding? r := fun _ => rfl
    have hheld : ∀ r, r ∈ slot.readers ↔ b.binding? r = some id := by
      intro r
      constructor
      · intro hr
        obtain ⟨reader, hreader, hslot⟩ := hb.observes h hr
        rw [binding?, hreader, Option.map_some, hslot]
      · intro hr
        obtain ⟨reader, hreader, rfl⟩ := Option.map_eq_some_iff.mp hr
        obtain ⟨s, hs, -, hin⟩ := hb.held hreader
        cases h.symm.trans hs
        exact hin
    refine ⟨fun {r before now} hbefore hnow hr => ?_, fun r hr => ?_, ?_⟩
    · -- a reader that is not told observes another slot
      obtain ⟨x, hx, hold⟩ := Option.bind_eq_some_iff.mp hbefore
      rw [readerValue?, hbinding, hx, Option.bind_some, hvalue, if_neg, hold,
        Option.some.injEq] at hnow
      · exact SlotValue.same_of_eq hnow.symm
      · rintro rfl
        exact hr (mem_sortBy.mpr ((hheld r).mpr hx))
    · have hr' := (hheld r).mp (mem_sortBy.mp hr)
      refine ⟨slot.value, v, ?_, ?_, ?_⟩
      · rw [readerValue?, hr', Option.bind_some, value?, h, Option.map_some]
      · rw [readerValue?, hbinding, hr', Option.bind_some, hvalue, if_pos rfl]
      · rwa [SlotValue.valueEq_comm]
    · refine pairwise_sortReaders (b := c) (hb.nodup h) fun r hr => ?_
      obtain ⟨reader, hreader, -⟩ := hb.observes h hr
      exact hreader ▸ Option.some_ne_none _

end Bindings

end MathCanvas
