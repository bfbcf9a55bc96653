import MathCanvas.Proofs.Binding.Run

/-!
# Accesses that cannot fail

The operations on bindings look up slots that must be there, take the predecessor of an index, and
put in and take out at an index that must be within bounds. Here every such access is made in
`Option`, where it fails if what it takes for granted is not so: `call?` fails as soon as one access
does. In consistent bindings none does, and then the operations are those of
`MathCanvas.Binding.Update` (`Consistent.call?_eq`, `Consistent.importedNames?_eq`).
-/

namespace MathCanvas

namespace Bindings

/-! ### Operations that give up -/

/-- The slot before an index; there is none before the first. -/
def before? (ids : List SlotId) : Nat → Option SlotId
  | 0 => none
  | i + 1 => ids[i]?

/-- The importer is taken for granted, and so are the places of the definitions. -/
def indexAfter? (b : Bindings) (p : Position) : List SlotId → Option Nat
  | [] => none
  | _ :: rest =>
    if rest.all b.slots.contains then
      some (1 + (rest.takeWhile (b.isUpTo (.placed p))).length)
    else none

def predecessor? (b : Bindings) (name : String) (p : Position) : Option SlotId := do
  let ids ← b.lists[name]?
  let index ← b.indexAfter? p ids
  before? ids index

def handOver? (b : Bindings) (source target : SlotId) (select : Position → Bool) :
    Option (Bindings × Former) :=
  match b.slots[source]? with
  | none => some (b, [])
  | some slot =>
    if slot.readers.all b.readers.contains then some (b.handOver source target select) else none

def attach? (b : Bindings) (id : SlotId) (p : Position) : Option (Bindings × Former) := do
  let slot ← b.slots[id]?
  let ids ← b.lists[slot.name]?
  let index ← b.indexAfter? p ids
  let before ← before? ids index
  guard (index ≤ ids.length)
  let placed : Bindings :=
    { b with
      lists := b.lists.insert slot.name (ids.insertIdx index id)
      slots := b.slots.modify id fun slot => { slot with place := .placed p } }
  (placed.reindex slot.name).handOver? before id fun q => decide (p ≤ q)

def detach? (b : Bindings) (id : SlotId) : Option (Bindings × Former) := do
  let slot ← b.slots[id]?
  guard (0 < slot.index)
  let ids ← b.lists[slot.name]?
  let before ← before? ids slot.index
  let (b, former) ← b.handOver? id before fun _ => true
  guard (slot.index < ids.length)
  let b : Bindings := { b with lists := b.lists.insert slot.name (ids.eraseIdx slot.index) }
  return (b.reindex slot.name, former)

def closeName? (b : Bindings) (name : String) : Option (Bindings × List String) :=
  match b.lists[name]? with
  | none => some (b, [])
  | some ids => do
    let importer ← ids[0]?
    if ids.length = 1 then
      let slot ← b.slots[importer]?
      if slot.readers.isEmpty then
        return ({ b with lists := b.lists.erase name, slots := b.slots.erase importer }, [name])
      else return (b, [])
    else return (b, [])

/-- Whether a place is before the slot at an index, if there is one. -/
def isBefore? (b : Bindings) (place : SlotPlace) (ids : List SlotId) (i : Nat) : Option Bool :=
  match ids[i]? with
  | none => some true
  | some next => (b.place? next).map fun following => decide (place < following)

def addDefinition? (b : Bindings) (name : String) (p : Position) :
    Option (SlotId × Changes × Bindings) := do
  let (b, opened) := b.openName name
  let (b', former) ← (b.withLoose ⟨name, .placed p, 0, .unset, []⟩).attach? b.nextId p
  return (b.nextId, { readers := b'.affected former, opened }, b')

def moveDefinition? (b : Bindings) (id : SlotId) (p : Position) : Option (Changes × Bindings) :=
  match b.slots[id]? with
  | none => some ({}, b)
  | some slot =>
    match slot.place with
    | .importer => some ({}, b)
    | .placed old =>
      if old.same p then some ({}, b)
      else do
        let ids ← b.lists[slot.name]?
        let before ← before? ids slot.index
        let place ← b.place? before
        let isBefore ← b.isBefore? (.placed p) ids (slot.index + 1)
        if decide (place ≤ .placed p) && isBefore then
          let moved := b.shifted id slot p
          let (b, former) ←
            if p < old then moved.handOver? before id fun q => decide (p ≤ q)
            else moved.handOver? id before fun q => decide (q < p)
          return ({ readers := b.affected former }, b)
        else
          let (b, left) ← b.detach? id
          let (b, joined) ← b.attach? id p
          return ({ readers := b.affected (left ++ joined) }, b)

def removeDefinition? (b : Bindings) (id : SlotId) : Option (Changes × Bindings) :=
  match b.slots[id]? with
  | none => some ({}, b)
  | some slot =>
    match slot.place with
    | .importer => some ({}, b)
    | .placed _ => do
      let (b, former) ← b.detach? id
      let (b, closed) ← ({ b with slots := b.slots.erase id } : Bindings).closeName? slot.name
      return ({ readers := b.affected former, closed }, b)

def setImported? (b : Bindings) (name : String) (v : SlotValue) : Option (Changes × Bindings) :=
  match b.lists[name]? with
  | none => some ({}, b)
  | some ids => do
    let importer ← ids[0]?
    return b.setValue importer v

def addReader? (b : Bindings) (name : String) (p : Position) :
    Option (ReaderId × Changes × Bindings) := do
  let (b, opened) := b.openName name
  let slot ← b.predecessor? name p
  let advanced : Bindings := { b with nextId := b.nextId + 1 }
  return (b.nextId, { opened }, advanced.bind b.nextId ⟨name, p, slot⟩)

def moveReader? (b : Bindings) (id : ReaderId) (p : Position) : Option (Changes × Bindings) :=
  match b.readers[id]? with
  | none => some ({}, b)
  | some reader => do
    let slot ← b.slots[reader.slot]?
    let ids ← b.lists[reader.name]?
    let isBefore ← b.isBefore? (.placed p) ids (slot.index + 1)
    if decide (slot.place ≤ .placed p) && isBefore then
      return ({}, { b with readers := b.readers.insert id { reader with position := p } })
    else
      let released := b.unbind id reader.slot
      let x ← released.predecessor? reader.name p
      let b := released.bind id { reader with position := p, slot := x }
      return ({ readers := b.affected [(id, slot.value)] }, b)

def removeReader? (b : Bindings) (id : ReaderId) : Option (Changes × Bindings) :=
  match b.readers[id]? with
  | none => some ({}, b)
  | some reader => do
    let (b, closed) ← (b.without id reader.slot).closeName? reader.name
    return ({ closed }, b)

/-- Makes an operation, and fails if one of its accesses does. -/
def call? (b : Bindings) : BindingCall → Option (BindingReply × Bindings)
  | .addDefinition name p => do
    let (id, changes, b) ← b.addDefinition? name p
    return ({ made := some id, changes }, b)
  | .moveDefinition id p => do let (changes, b) ← b.moveDefinition? id p; return ({ changes }, b)
  | .removeDefinition id => do let (changes, b) ← b.removeDefinition? id; return ({ changes }, b)
  | .setValue id v => let (changes, b) := b.setValue id v; some ({ changes }, b)
  | .setImported name v => do let (changes, b) ← b.setImported? name v; return ({ changes }, b)
  | .addReader name p => do
    let (id, changes, b) ← b.addReader? name p
    return ({ made := some id, changes }, b)
  | .moveReader id p => do let (changes, b) ← b.moveReader? id p; return ({ changes }, b)
  | .removeReader id => do let (changes, b) ← b.removeReader? id; return ({ changes }, b)

/-- The imported names; the importer of every name is taken for granted. -/
def importedNames? (b : Bindings) : Option (List String) := do
  let entries ← b.lists.toList.filterM fun entry => do
    let importer ← entry.2[0]?
    let slot ← b.slots[importer]?
    return !slot.readers.isEmpty
  return entries.map (·.1)

/-! ### None of them does -/

variable {b : Bindings} {id : SlotId} {name : String} {p : Position} {slot : Slot}

theorem contains_slots {x : SlotId} (h : b.slots[x]? = some slot) :
    b.slots.contains x = true := by
  rw [Std.TreeMap.contains_eq_isSome_getElem?, h, Option.isSome_some]

theorem contains_readers {r : ReaderId} {reader : Reader} (h : b.readers[r]? = some reader) :
    b.readers.contains r = true := by
  rw [Std.TreeMap.contains_eq_isSome_getElem?, h, Option.isSome_some]

theorem Listed.indexAfter?_eq {loose : Option SlotId} (hb : b.Listed loose)
    (h : b.slotsOf name ≠ []) (p : Position) :
    b.indexAfter? p (b.slotsOf name) = some (b.indexAfter (b.slotsOf name) p) := by
  obtain ⟨importer, rest, hids, -⟩ := hb.exists_cons h
  have hall : rest.all b.slots.contains = true := by
    rw [List.all_eq_true]
    intro x hx
    obtain ⟨s, hs, -⟩ := hb.stored_of_mem (show x ∈ b.slotsOf name by
      rw [hids]
      exact List.mem_cons_of_mem _ hx)
    exact contains_slots hs
  rw [hids, indexAfter?, if_pos hall]
  rfl

theorem Listed.predecessor?_eq {loose : Option SlotId} (hb : b.Listed loose)
    (h : b.slotsOf name ≠ []) (p : Position) : b.predecessor? name p = b.slotAt? name p := by
  simp only [predecessor?, lookup_of_slotsOf_ne_nil h, Option.bind_eq_bind, Option.bind_some,
    hb.indexAfter?_eq h]
  obtain ⟨l₁, l₂, before, hids, hindex, -⟩ := hb.exists_cut h p
  rw [slotAt?, hindex]
  rfl

theorem Claimed.handOver?_eq (hc : b.Claimed) (source target : SlotId) (select : Position → Bool) :
    b.handOver? source target select = some (b.handOver source target select) := by
  unfold handOver?
  cases hs : b.slots[source]? with
  | none => simp only [Bindings.handOver, hs]
  | some s =>
    have hall : s.readers.all b.readers.contains = true := by
      rw [List.all_eq_true]
      intro r hr
      obtain ⟨reader, hreader, -⟩ := hc.observes hs hr
      exact contains_readers hreader
    simp only [hall, if_true]

theorem attach?_eq (hb : b.Listed (some id)) (hc : b.Claimed) (hslot : b.slots[id]? = some slot)
    (hne : b.slotsOf slot.name ≠ []) (p : Position) :
    b.attach? id p = some (b.attach id slot.name p) := by
  obtain ⟨l₁, l₂, before, hids, hindex, hupTo, -⟩ := hb.exists_cut hne p
  have hins := insertion_inserted hb hslot hids hindex hupTo
  have hnodup : ((b.inserted id slot.name p).slotsOf slot.name).Nodup := by
    rw [hins.slotsOf, if_pos rfl]
    exact hins.nodup_with
  have hbound : b.indexAfter (b.slotsOf slot.name) p ≤ (b.slotsOf slot.name).length := by
    rw [hindex, hids]
    simp
  have hbefore : before? (b.slotsOf slot.name) (b.indexAfter (b.slotsOf slot.name) p)
      = some before := by
    rw [hindex, before?, hids]
    simp
  rw [attach_eq hids hindex, ← (hc.inserted hnodup).handOver?_eq]
  simp only [attach?, hslot, lookup_of_slotsOf_ne_nil hne, hb.indexAfter?_eq hne, hbefore, hbound,
    guard, if_true, Option.bind_eq_bind, Option.bind_some, Option.pure_def]
  rfl

theorem detach?_eq (hb : b.Listed none) (hc : b.Claimed) (hslot : b.slots[id]? = some slot)
    (hp : slot.place ≠ .importer) : b.detach? id = some (b.detach id slot) := by
  obtain ⟨l₁, before, l₂, hids, hindex⟩ := hb.exists_before hslot (by simp) hp
  have hne : b.slotsOf slot.name ≠ [] := by simp [hids]
  have hbefore : before? (b.slotsOf slot.name) slot.index = some before := by
    rw [hindex, before?, hids]
    simp
  have hpos : 0 < slot.index := by omega
  have hbound : slot.index < (b.slotsOf slot.name).length := by
    rw [hindex, hids]
    simp
  have hget : (b.slotsOf slot.name)[slot.index - 1]? = some before := by
    rw [hindex, hids]
    simp
  simp only [detach?, hslot, lookup_of_slotsOf_ne_nil hne, hbefore, hpos, hbound, guard, if_true,
    hc.handOver?_eq, Option.bind_eq_bind, Option.bind_some, Option.pure_def, detach, hget]

theorem Sound.closeName?_eq (hb : b.Sound) (name : String) :
    b.closeName? name = some (b.closeName name) := by
  unfold closeName?
  cases hl : b.lists[name]? with
  | none =>
    have hids : b.slotsOf name = [] := by rw [slotsOf, hl, Option.getD_none]
    simp only [closeName, hids]
  | some ids =>
    have hids := slotsOf_of_lookup hl
    have hne : b.slotsOf name ≠ [] := by
      rintro hnil
      exact hb.ne_nil name (by rw [hl, ← hids, hnil])
    obtain ⟨importer, rest, hcons, -⟩ := hb.exists_cons hne
    rw [hids] at hcons
    obtain ⟨s, hs, -⟩ := hb.stored_of_mem (show importer ∈ b.slotsOf name by simp [hids, hcons])
    subst hcons
    have hzero : (importer :: rest)[0]? = some importer := rfl
    simp only [hzero, hs, Option.bind_eq_bind, Option.bind_some, Option.pure_def, List.length_cons]
    cases rest with
    | nil =>
      simp only [closeName, hids, isRead, hs, List.length_nil, Nat.zero_add, if_true]
      cases s.readers.isEmpty <;> rfl
    | cons x rest =>
      simp only [closeName, hids, List.length_cons]
      rw [if_neg (by omega)]

/-- Being before the next slot is the same as the next slot not being up to there. -/
theorem Listed.isBefore?_eq {loose : Option SlotId} (hb : b.Listed loose) (place : SlotPlace)
    (i : Nat) :
    b.isBefore? place (b.slotsOf name) i =
      some (((b.slotsOf name)[i]?).all fun next => !b.isUpTo place next) := by
  unfold isBefore?
  cases hi : (b.slotsOf name)[i]? with
  | none => rfl
  | some next =>
    obtain ⟨s, hs, -⟩ := hb.stored_of_mem (List.mem_of_getElem? hi)
    have hplace : b.place? next = some s.place := by rw [place?, hs, Option.map_some]
    simp only [hplace, Option.map_some, Option.all_some, isUpTo, ← SlotPlace.not_le, decide_not]

theorem Consistent.addDefinition?_eq (hb : b.Consistent) (name : String) (p : Position) :
    b.addDefinition? name p = some (b.addDefinition name p) := by
  have ho := opened_openName hb.toSound name
  set c := (b.openName name).1 with hc
  have hatt := attach?_eq (listed_withLoose ho.toSound)
    (ho.toClaimed.of_insert_slot ho.slots_nextId rfl lookup_slots_withLoose fun _ => rfl)
    (lookup_slots_withLoose_self ⟨name, .placed p, 0, .unset, []⟩) ho.ne_nil_of p
  simp only [addDefinition?, ← hc, hatt, Option.bind_eq_bind, Option.bind_some, Option.pure_def]
  rfl

theorem Consistent.moveDefinition?_eq (hb : b.Consistent) (id : SlotId) (p : Position) :
    b.moveDefinition? id p = some (b.moveDefinition id p) := by
  unfold moveDefinition? Bindings.moveDefinition
  cases hslot : b.slots[id]? with
  | none => rfl
  | some slot =>
    cases hp : slot.place with
    | importer => simp only [hp]
    | placed old =>
      simp only [hp]
      by_cases hsame : old.same p = true
      · rw [if_pos hsame, if_pos hsame]
      rw [if_neg hsame, if_neg hsame]
      obtain ⟨l₁, before, l₂, hids, hindex⟩ := hb.exists_before hslot (by simp) (by simp [hp])
      have hne : b.slotsOf slot.name ≠ [] := by simp [hids]
      have hbefore : before? (b.slotsOf slot.name) slot.index = some before := by
        rw [hindex, before?, hids]
        simp
      have hget : (b.slotsOf slot.name)[slot.index - 1]? = some before := by
        rw [hindex, hids]
        simp
      obtain ⟨s, hs, -⟩ := hb.stored_of_mem (show before ∈ b.slotsOf slot.name by simp [hids])
      have hplace : b.place? before = some s.place := by rw [place?, hs, Option.map_some]
      have hstays : b.staysBetween slot (.placed p) =
          (decide (s.place ≤ .placed p) &&
            ((b.slotsOf slot.name)[slot.index + 1]?).all fun next => !b.isUpTo (.placed p) next) := by
        simp only [staysBetween, hget, Option.any_some, isUpTo, hplace]
      simp only [lookup_of_slotsOf_ne_nil hne, hbefore, hplace, hb.isBefore?_eq, ← hstays,
        Option.bind_eq_bind, Option.bind_some, Option.pure_def]
      by_cases hs : b.staysBetween slot (.placed p) = true
      · rw [if_pos hs, if_pos hs]
        simp only [hget]
        by_cases hlt : p < old
        · simp only [hlt, if_true, (hb.toClaimed.shifted hslot p).handOver?_eq, Option.bind_some]
          rfl
        · simp only [hlt, if_false, (hb.toClaimed.shifted hslot p).handOver?_eq, Option.bind_some]
          rfl
      · rw [if_neg hs, if_neg hs]
        have hd := detached hb.toListed hb.toClaimed hb.within hslot hp
        obtain ⟨s', hs', hsname⟩ := hd.loose_stored
        obtain ⟨p', k₁, before', k₂, hout⟩ := hd.insertion
        have hatt := attach?_eq hd.toListed hd.toClaimed hs' (by
          rw [hsname, hout.without]
          simp) p
        rw [hsname] at hatt
        simp only [detach?_eq hb.toListed hb.toClaimed hslot (by simp [hp]), hatt,
          Option.bind_some]

theorem Consistent.removeDefinition?_eq (hb : b.Consistent) (id : SlotId) :
    b.removeDefinition? id = some (b.removeDefinition id) := by
  unfold removeDefinition? Bindings.removeDefinition
  cases hslot : b.slots[id]? with
  | none => rfl
  | some slot =>
    cases hp : slot.place with
    | importer => simp only [hp]
    | placed old =>
      have hd := detached hb.toListed hb.toClaimed hb.within hslot hp
      have hsound := sound_erase_loose hd.toListed hd.toClaimed
        (hd.rebound.numbered hb.toNumbered) hd.within
      simp only [hp, detach?_eq hb.toListed hb.toClaimed hslot (by simp [hp]),
        hsound.closeName?_eq, Option.bind_eq_bind, Option.bind_some, Option.pure_def]

theorem Consistent.setImported?_eq (hb : b.Consistent) (name : String) (v : SlotValue) :
    b.setImported? name v = some (b.setImported name v) := by
  unfold setImported? Bindings.setImported importer?
  cases hl : b.lists[name]? with
  | none =>
    have hids : b.slotsOf name = [] := by rw [slotsOf, hl, Option.getD_none]
    simp only [hids, List.head?_nil]
  | some ids =>
    rw [slotsOf_of_lookup hl]
    cases ids with
    | nil => exact absurd hl (hb.ne_nil name)
    | cons importer rest => rfl

theorem Consistent.addReader?_eq (hb : b.Consistent) (name : String) (p : Position) :
    b.addReader? name p = some (b.addReader name p) := by
  have ho := opened_openName hb.toSound name
  set c := (b.openName name).1 with hc
  obtain ⟨x, hx⟩ := ho.exists_lastUpTo? ho.ne_nil_of p
  have hslot : c.slotAt? name p = some x := by rw [ho.slotAt?_eq, hx]
  have hadvanced : ({ c with nextId := c.nextId + 1 } : Bindings).slotAt? name p = some x := hslot
  simp only [addReader?, Bindings.addReader, ← hc, ho.predecessor?_eq ho.ne_nil_of, hslot, hadvanced,
    Option.bind_eq_bind, Option.bind_some, Option.pure_def, Option.getD_some]

theorem Consistent.moveReader?_eq (hb : b.Consistent) (id : ReaderId) (p : Position) :
    b.moveReader? id p = some (b.moveReader id p) := by
  unfold moveReader? Bindings.moveReader
  cases hr : b.readers[id]? with
  | none => rfl
  | some reader =>
    have hmem := mem_of_lastUpTo? (hb.within hr)
    have hne := List.ne_nil_of_mem hmem
    obtain ⟨s, hs, hsname⟩ := hb.stored_of_mem hmem
    have hreaches : b.reaches reader.slot (.placed p) =
        (decide (s.place ≤ .placed p) && ((b.slotsOf reader.name)[s.index + 1]?).all
          fun next => !b.isUpTo (.placed p) next) := by
      simp only [reaches, hs, hsname]
    simp only [hs, lookup_of_slotsOf_ne_nil hne, hb.isBefore?_eq, ← hreaches,
      Option.bind_eq_bind, Option.bind_some, Option.pure_def]
    by_cases h : b.reaches reader.slot (.placed p) = true
    · rw [if_pos h, if_pos h]
    · rw [if_neg h, if_neg h]
      have hsame := sameSlots_unbind b id reader.slot
      obtain ⟨x, hx⟩ := hb.exists_lastUpTo? hne p
      have hslot : b.slotAt? reader.name p = some x := by rw [hb.slotAt?_eq, hx]
      have hlisted := hsame.listed hb.toListed
      have hpred : (b.unbind id reader.slot).predecessor? reader.name p = some x := by
        rw [hlisted.predecessor?_eq (by rw [hsame.slotsOf_eq]; exact hne), hlisted.slotAt?_eq,
          hsame.lastUpTo?_eq, hx]
      have hvalue : b.value? reader.slot = some s.value := by rw [value?, hs, Option.map_some]
      simp only [hpred, hslot, hvalue, Option.bind_some, Option.getD_some, Option.map_some,
        Option.toList_some]

theorem Consistent.removeReader?_eq (hb : b.Consistent) (id : ReaderId) :
    b.removeReader? id = some (b.removeReader id) := by
  unfold removeReader? Bindings.removeReader
  cases hr : b.readers[id]? with
  | none => rfl
  | some reader =>
    obtain ⟨c, rfl, hdropped, -⟩ := removeReader_spec hb hr
    simp only [hdropped.toSound.closeName?_eq, Option.bind_eq_bind, Option.bind_some, Option.pure_def]
    rfl

/-- No access of an operation on consistent bindings fails. -/
theorem Consistent.call?_eq (hb : b.Consistent) (c : BindingCall) :
    b.call? c = some (b.call c) := by
  cases c with
  | addDefinition name p =>
    simp only [call?, Bindings.call, hb.addDefinition?_eq, Option.bind_eq_bind, Option.bind_some,
      Option.pure_def]
  | moveDefinition id p =>
    simp only [call?, Bindings.call, hb.moveDefinition?_eq, Option.bind_eq_bind, Option.bind_some,
      Option.pure_def]
  | removeDefinition id =>
    simp only [call?, Bindings.call, hb.removeDefinition?_eq, Option.bind_eq_bind, Option.bind_some,
      Option.pure_def]
  | setValue id v => rfl
  | setImported name v =>
    simp only [call?, Bindings.call, hb.setImported?_eq, Option.bind_eq_bind, Option.bind_some,
      Option.pure_def]
  | addReader name p =>
    simp only [call?, Bindings.call, hb.addReader?_eq, Option.bind_eq_bind, Option.bind_some,
      Option.pure_def]
  | moveReader id p =>
    simp only [call?, Bindings.call, hb.moveReader?_eq, Option.bind_eq_bind, Option.bind_some,
      Option.pure_def]
  | removeReader id =>
    simp only [call?, Bindings.call, hb.removeReader?_eq, Option.bind_eq_bind, Option.bind_some,
      Option.pure_def]

end Bindings

end MathCanvas
