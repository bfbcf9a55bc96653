import MathCanvas.Proofs.Binding.Insertion
import MathCanvas.Proofs.Binding.Rebound

/-!
# Putting definitions in, taking them out and shifting them

`attach`, `detach` and a move between the same neighbours change the list of a name, or a place in
it, and then hand readers over. The change alone leaves readers within reach of another slot than
they observe; the hand-over makes that good, so that all readers are within reach of their slots
again (`attached`, `detached`, `shifted`).
-/

namespace MathCanvas

namespace Bindings

variable {b b' : Bindings} {id before : SlotId} {name : String} {p old : Position} {slot : Slot}
  {l₁ l₂ : List SlotId}

/-- Readers stay within reach of their slots if they change hands as their reach changes. -/
theorem Within.of_handOver {source target : SlotId} {select : Position → Bool} {s : Slot}
    (hw : b.Within) (hc : b'.Claimed) (hs : b'.slots[source]? = some s)
    (hreaders : ∀ r : ReaderId, b'.readers[r]? = b.readers[r]?)
    (hlast : ∀ (n : String) (q : Position) (x : SlotId), b.lastUpTo? n q = some x →
      b'.lastUpTo? n q = some (if x = source ∧ select q = true then target else x)) :
    (b'.handOver source target select).1.Within := by
  intro r reader' hr
  rw [lookup_readers_handOver hc hs target select, hreaders] at hr
  obtain ⟨reader, hreader, rfl⟩ := Option.map_eq_some_iff.mp hr
  rw [(sameSlots_handOver b' source target select).lastUpTo?_eq]
  have h := hlast _ _ _ (hw hreader)
  by_cases hmoved : reader.slot = source ∧ select reader.position = true
  · rw [if_pos hmoved] at h ⊢
    exact h
  · rw [if_neg hmoved] at h ⊢
    exact h

/-- A slot belongs to the list of one name only. -/
theorem Listed.name_eq_of_mem {loose : Option SlotId} (hb : b.Listed loose) {n m : String}
    {x : SlotId} (hn : x ∈ b.slotsOf n) (hm : x ∈ b.slotsOf m) : n = m := by
  obtain ⟨slot, hslot, rfl⟩ := hb.stored_of_mem hn
  obtain ⟨slot', hslot', rfl⟩ := hb.stored_of_mem hm
  rw [hslot] at hslot'
  cases hslot'
  rfl

/-! ### Putting a definition in -/

/-- The bindings with a definition in the list of a name, with the indices and the readers as they
were. -/
def inserted (b : Bindings) (id : SlotId) (name : String) (p : Position) : Bindings :=
  { b with
    lists := b.lists.insert name ((b.slotsOf name).insertIdx (b.indexAfter (b.slotsOf name) p) id)
    slots := b.slots.modify id fun slot => { slot with place := .placed p } }

theorem attach_eq (hids : b.slotsOf name = l₁ ++ before :: l₂)
    (hindex : b.indexAfter (b.slotsOf name) p = l₁.length + 1) :
    b.attach id name p =
      ((b.inserted id name p).reindex name).handOver before id fun q => decide (p ≤ q) := by
  have hbefore : (b.slotsOf name)[b.indexAfter (b.slotsOf name) p - 1]? = some before := by
    rw [hindex, hids]
    simp
  unfold attach
  simp only [hbefore]
  rfl

theorem lookup_slots_inserted (x : SlotId) :
    (b.inserted id name p).slots[x]? =
      if id = x then (b.slots[x]?).map fun slot => { slot with place := .placed p }
      else b.slots[x]? :=
  lookup_modify _ _ _ _

theorem insertion_inserted (hb : b.Listed (some id)) (hslot : b.slots[id]? = some slot)
    (hids : b.slotsOf name = l₁ ++ before :: l₂)
    (hindex : b.indexAfter (b.slotsOf name) p = l₁.length + 1)
    (hupTo : ∀ x ∈ l₁ ++ [before], b.isUpTo (.placed p) x = true) :
    Insertion b (b.inserted id name p) id name p l₁ before l₂ where
  without := hids
  slotsOf n := by
    have hinsert : (b.slotsOf name).insertIdx (b.indexAfter (b.slotsOf name) p) id
        = l₁ ++ before :: id :: l₂ := by
      rw [hindex, hids, insertIdx_length_succ]
    rw [inserted, Bindings.slotsOf, lookup_insert, hinsert]
    by_cases h : name = n
    · rw [if_pos h, if_pos h.symm, Option.getD_some]
    · rw [if_neg h, if_neg (Ne.symm h)]
      rfl
  place x := by
    rw [place?, lookup_slots_inserted]
    by_cases h : id = x
    · subst h
      rw [if_pos rfl, if_pos rfl, hslot]
      rfl
    · rw [if_neg h, if_neg (Ne.symm h)]
      rfl
  upTo := hupTo
  nodup := hb.nodup_slotsOf name
  not_mem := hb.not_mem_of_loose rfl

/-- With a loose definition of the name put in, no slot is loose. -/
theorem listed_inserted (hb : b.Listed (some id)) (hslot : b.slots[id]? = some slot)
    (hname : slot.name = name) (h : Insertion b (b.inserted id name p) id name p l₁ before l₂)
    (hafter : ∀ y ∈ l₂, b.isUpTo (.placed p) y = false) :
    ((b.inserted id name p).reindex name).Listed none := by
  have hslots := h.slotsOf
  have hname' : (b.inserted id name p).slotsOf name = l₁ ++ before :: id :: l₂ := by
    rw [hslots, if_pos rfl]
  have hself : (b.inserted id name p).slots[id]? = some { slot with place := .placed p } := by
    rw [lookup_slots_inserted, if_pos rfl, hslot, Option.map_some]
  have hlookup : ∀ x : SlotId, x ≠ id → (b.inserted id name p).slots[x]? = b.slots[x]? := by
    intro x hx
    rw [lookup_slots_inserted, if_neg (Ne.symm hx)]
  refine listed_reindex ?_ ?_ ?_ ?_ ?_ (by simp) ?_
  · intro n hn
    by_cases heq : n = name
    · subst heq
      have hnil := slotsOf_of_lookup hn
      rw [hname'] at hnil
      simp at hnil
    · rw [inserted, lookup_insert_of_ne _ _ (Ne.symm heq)] at hn
      exact hb.ne_nil n hn
  · rw [hname']
    exact h.nodup_with
  · -- the slots of the name: those that were there, and the new one
    rw [hname', show (l₁ ++ before :: id :: l₂).head? = (b.slotsOf name).head? by
      rw [h.without]; cases l₁ <;> rfl]
    intro x hx
    by_cases hxid : x = id
    · subst hxid
      refine ⟨_, hself, hname, by simp, fun hhead => ?_⟩
      exact absurd (List.mem_of_mem_head? hhead) (h.not_mem name)
    · have hmem : x ∈ b.slotsOf name := by
        rw [h.without]
        simpa [hxid] using hx
      obtain ⟨slot', hslot', hslotname⟩ := hb.stored_of_mem hmem
      exact ⟨slot', (hlookup x hxid).trans hslot', hslotname,
        hb.place_eq_importer_iff hslot' hmem⟩
  · intro n i x hn hx
    rw [hslots, if_neg hn] at hx
    have hxid : x ≠ id := fun heq => h.not_mem n (heq ▸ List.mem_of_getElem? hx)
    obtain ⟨slot', hslot', hrest⟩ := hb.stored hx
    exact ⟨slot', (hlookup x hxid).trans hslot', hrest⟩
  · intro x slot' hx _
    by_cases hxid : x = id
    · subst hxid
      rw [hself] at hx
      cases hx
      rw [if_pos hname, hname']
      simp
    · rw [hlookup x hxid] at hx
      have hold := hb.listed hx (by simpa using Ne.symm hxid)
      by_cases hn : slot'.name = name
      · rw [if_pos hn, hname']
        have := List.mem_of_getElem? hold
        rw [hn, h.without] at this
        simp only [List.mem_append, List.mem_cons] at this ⊢
        tauto
      · rw [if_neg hn, hslots, if_neg hn]
        exact hold
  · refine h.pairwise_le (fun y hy q hq => ?_) hb.ordered
    have hlate := hafter y hy
    rw [isUpTo, hq] at hlate
    exact SlotPlace.le_of_lt (SlotPlace.not_le.mp (by simpa using hlate))

theorem Claimed.inserted (hc : b.Claimed) (hnodup : ((b.inserted id name p).slotsOf name).Nodup) :
    ((b.inserted id name p).reindex name).Claimed := by
  refine Claimed.reindex (hc.of_eq (fun x => ?_) fun _ => rfl) hnodup
  rw [lookup_slots_inserted]
  split
  · rw [Option.map_map]
    rfl
  · rfl

/-- What putting a definition in does: it is in its list, behind the slots that are not after it,
and everything is in step again. -/
structure Attached (b b' : Bindings) (id : SlotId) (name : String) (p : Position)
    (former : Former) : Prop extends Listed b' none, Claimed b' where
  insertion : ∃ l₁ before l₂, Insertion b b' id name p l₁ before l₂ ∧
    ∀ y ∈ l₂, b.isUpTo (.placed p) y = false
  within : b'.Within
  rebound : Rebound b b' former
  /-- Those who observed another slot before observe the definition. -/
  noted : ∀ {r : ReaderId} {v : SlotValue}, former.lookup r = some v → b'.binding? r = some id

theorem attached (hb : b.Listed (some id)) (hc : b.Claimed) (hw : b.Within)
    (hslot : b.slots[id]? = some slot) (hne : b.slotsOf slot.name ≠ []) (p : Position) :
    Attached b (b.attach id slot.name p).1 id slot.name p (b.attach id slot.name p).2 := by
  obtain ⟨l₁, l₂, before, hids, hindex, hupTo, hafter⟩ := hb.exists_cut hne p
  have hins := insertion_inserted hb hslot hids hindex hupTo
  have hlisted := listed_inserted hb hslot rfl hins hafter
  have hnodup : ((b.inserted id slot.name p).slotsOf slot.name).Nodup := by
    rw [hins.slotsOf, if_pos rfl]
    exact hins.nodup_with
  have hclaimed := hc.inserted hnodup
  -- the predecessor and the definition are stored, under one name
  have hslotsOf : ((b.inserted id slot.name p).reindex slot.name).slotsOf slot.name
      = l₁ ++ before :: id :: l₂ := by
    rw [slotsOf_reindex, hins.slotsOf, if_pos rfl]
  have hmem : ∀ x ∈ l₁ ++ before :: id :: l₂,
      x ∈ ((b.inserted id slot.name p).reindex slot.name).slotsOf slot.name := by
    intro x hx
    rw [hslotsOf]
    exact hx
  obtain ⟨s, hs, hsname⟩ := hlisted.stored_of_mem (hmem before (by simp))
  obtain ⟨t, ht, htname⟩ := hlisted.stored_of_mem (hmem id (by simp))
  have hdistinct : before ≠ id := by
    rintro rfl
    exact hins.not_mem slot.name (by rw [hids]; simp)
  have hplace : ∀ x, ((b.inserted id slot.name p).reindex slot.name).place? x
      = (b.inserted id slot.name p).place? x := place?_reindex hnodup
  rw [attach_eq hids hindex]
  have hsame := sameSlots_handOver ((b.inserted id slot.name p).reindex slot.name) before id
    fun q => decide (p ≤ q)
  refine { hsame.listed hlisted,
    hclaimed.handOver hs ht hdistinct (by rw [hsname, htname]) with
    insertion := ⟨l₁, before, l₂, ?_, hafter⟩
    within := ?_
    rebound := ?_
    noted := fun hr => binding?_of_noted hclaimed hs hr }
  · exact { hins with
      slotsOf := fun n => by rw [hsame.slotsOf_eq, slotsOf_reindex, hins.slotsOf]
      place := fun x => by rw [hsame.place?_eq, hplace, hins.place] }
  · refine hw.of_handOver hclaimed hs (fun _ => rfl) fun n q x hx => ?_
    rw [lastUpTo?_congr (slotsOf_reindex _ _ _) hplace, hins.lastUpTo?_eq, hx]
    by_cases hmoved : x = before ∧ p ≤ q
    · have hn : n = slot.name := by
        refine hb.name_eq_of_mem (mem_of_lastUpTo? hx) ?_
        rw [hmoved.1, hids]
        simp
      rw [if_pos ⟨hn, hmoved.2, by rw [hmoved.1]⟩, if_pos (by simpa using hmoved)]
    · rw [if_neg (by simp only [Option.some.injEq]; tauto), if_neg (by simpa using hmoved)]
  · have hplaced : Rebound b (b.inserted id slot.name p) [] := by
      refine Rebound.of_readers_eq (fun _ => rfl) (fun x => ?_) rfl
      rw [value?, lookup_slots_inserted]
      split
      · rw [Option.map_map]
        rfl
      · rfl
    exact (hplaced.trans (rebound_reindex hnodup)).trans (rebound_handOver hclaimed hs _ _)

/-! ### Taking a definition out -/

/-- A definition has a predecessor in its list. -/
theorem Listed.exists_before {loose : Option SlotId} (hb : b.Listed loose)
    (hslot : b.slots[id]? = some slot) (hl : loose ≠ some id) (hplace : slot.place ≠ .importer) :
    ∃ l₁ before l₂, b.slotsOf slot.name = l₁ ++ before :: id :: l₂ ∧
      slot.index = l₁.length + 1 := by
  have hid := hb.listed hslot hl
  obtain ⟨slot', hslot', -, -, hindex⟩ := hb.stored hid
  rw [hslot] at hslot'
  cases hslot'
  have hpos : slot.index ≠ 0 := fun h => hplace (hindex.mpr h)
  obtain ⟨hlt, hget⟩ := List.getElem?_eq_some_iff.mp hid
  set ids := b.slotsOf slot.name
  have hcut : ids = ids.take slot.index ++ id :: ids.drop (slot.index + 1) := by
    rw [← hget, List.getElem_cons_drop, List.take_append_drop]
  have hne : ids.take slot.index ≠ [] := by
    intro h
    have := congrArg List.length h
    rw [List.length_take, List.length_nil] at this
    omega
  refine ⟨(ids.take slot.index).dropLast, (ids.take slot.index).getLast hne,
    ids.drop (slot.index + 1), ?_, ?_⟩
  · rw [List.append_cons, List.dropLast_append_getLast hne]
    exact hcut
  · rw [List.length_dropLast, List.length_take]
    omega

/-- The bindings with a list that lacks the slot at an index, with the indices as they were. -/
def excised (b : Bindings) (name : String) (i : Nat) : Bindings :=
  { b with lists := b.lists.insert name ((b.slotsOf name).eraseIdx i) }

theorem slotsOf_excised (hids : b.slotsOf name = l₁ ++ before :: id :: l₂) (n : String) :
    (b.excised name (l₁.length + 1)).slotsOf n =
      if n = name then l₁ ++ before :: l₂ else b.slotsOf n := by
  rw [excised, slotsOf, lookup_insert, hids, eraseIdx_length_succ]
  by_cases h : name = n
  · rw [if_pos h, if_pos h.symm, Option.getD_some]
  · rw [if_neg h, if_neg (Ne.symm h)]
    rfl

theorem place?_excised (name : String) (i : Nat) (x : SlotId) :
    (b.excised name i).place? x = b.place? x := rfl

theorem insertion_excised (hb : b.Listed none) (hplace : b.place? id = some (.placed p))
    (hids : b.slotsOf name = l₁ ++ before :: id :: l₂) :
    Insertion (b.excised name (l₁.length + 1)) b id name p l₁ before l₂ := by
  have hnodup := hb.nodup_slotsOf name
  rw [hids, List.append_cons] at hnodup
  have hparts := List.nodup_append.mp hnodup
  refine ⟨?_, ?_, ?_, ?_, ?_, ?_⟩
  · rw [slotsOf_excised hids, if_pos rfl]
  · intro n
    rw [slotsOf_excised hids]
    by_cases hn : n = name
    · rw [if_pos hn, hn, hids]
    · rw [if_neg hn, if_neg hn]
  · intro x
    rw [place?_excised]
    by_cases hx : x = id
    · rw [if_pos hx, hx, hplace]
    · rw [if_neg hx]
  · -- what stands before the definition is not after it
    intro x hx
    have hordered := hb.ordered name
    rw [hids, List.append_cons, List.pairwise_append] at hordered
    obtain ⟨slot, hslot, -⟩ := hb.stored_of_mem (show x ∈ b.slotsOf name by
      rw [hids, List.append_cons]
      exact List.mem_append_left _ hx)
    have hq : b.place? x = some slot.place := by rw [place?, hslot, Option.map_some]
    exact isUpTo_eq_true_iff.mpr
      ⟨_, hq, hordered.2.2 x hx id List.mem_cons_self _ _ hq hplace⟩
  · rw [slotsOf_excised hids, if_pos rfl, List.append_cons]
    exact (hnodup.sublist ((List.Sublist.refl _).append (List.sublist_cons_self _ _)))
  · intro n hmem
    rw [slotsOf_excised hids] at hmem
    by_cases hn : n = name
    · rw [if_pos hn, List.append_cons, List.mem_append] at hmem
      rcases hmem with hmem | hmem
      · exact hparts.2.2 id hmem id List.mem_cons_self rfl
      · exact (List.nodup_cons.mp hparts.2.1).1 hmem
    · rw [if_neg hn] at hmem
      refine hn (hb.name_eq_of_mem hmem ?_)
      rw [hids]
      simp

theorem ordered_excised (hb : b.Listed none)
    (hids : b.slotsOf name = l₁ ++ before :: id :: l₂) (n : String) :
    ((b.excised name (l₁.length + 1)).slotsOf n).Pairwise fun x y =>
      ∀ p q, b.place? x = some p → b.place? y = some q → p ≤ q := by
  rw [slotsOf_excised hids]
  by_cases hn : n = name
  · rw [if_pos hn]
    have hordered := hb.ordered name
    rw [hids, List.append_cons] at hordered
    rw [List.append_cons]
    exact hordered.sublist ((List.Sublist.refl _).append (List.sublist_cons_self _ _))
  · rw [if_neg hn]
    exact hb.ordered n

/-- With a definition taken out, it is loose. -/
theorem listed_excised (hb : b.Listed none) (hids : b.slotsOf name = l₁ ++ before :: id :: l₂)
    (h : Insertion (b.excised name (l₁.length + 1)) b id name p l₁ before l₂) :
    ((b.excised name (l₁.length + 1)).reindex name).Listed (some id) := by
  have hslots := slotsOf_excised hids
  have hname' : (b.excised name (l₁.length + 1)).slotsOf name = l₁ ++ before :: l₂ := h.without
  refine listed_reindex ?_ h.nodup ?_ ?_ ?_ ?_ (ordered_excised hb hids)
  · intro n hn
    by_cases heq : n = name
    · subst heq
      have hnil := slotsOf_of_lookup hn
      rw [hname'] at hnil
      simp at hnil
    · rw [excised, lookup_insert_of_ne _ _ (Ne.symm heq)] at hn
      exact hb.ne_nil n hn
  · rw [hname', show (l₁ ++ before :: l₂).head? = (b.slotsOf name).head? by
      rw [hids]; cases l₁ <;> rfl]
    intro x hx
    have hmem : x ∈ b.slotsOf name := by
      rw [hids]
      simp only [List.mem_append, List.mem_cons] at hx ⊢
      tauto
    obtain ⟨slot', hslot', hslotname⟩ := hb.stored_of_mem hmem
    exact ⟨slot', hslot', hslotname, hb.place_eq_importer_iff hslot' hmem⟩
  · intro n i x hn hx
    rw [hslots, if_neg hn] at hx
    exact hb.stored hx
  · intro x slot' hx hl
    have hxid : x ≠ id := by simpa using Ne.symm hl
    have hold := hb.listed hx (by simp)
    by_cases hn : slot'.name = name
    · rw [if_pos hn, hname']
      have := List.mem_of_getElem? hold
      rw [hn, hids] at this
      simp only [List.mem_append, List.mem_cons] at this ⊢
      tauto
    · rw [if_neg hn, hslots, if_neg hn]
      exact hold
  · intro x hx n
    cases hx
    exact h.not_mem n

theorem detach_eq (hids : b.slotsOf slot.name = l₁ ++ before :: id :: l₂)
    (hindex : slot.index = l₁.length + 1) :
    b.detach id slot =
      ((((b.handOver id before fun _ => true).1.excised slot.name (l₁.length + 1)).reindex
        slot.name), (b.handOver id before fun _ => true).2) := by
  have hbefore : (b.slotsOf slot.name)[slot.index - 1]? = some before := by
    rw [hindex, hids]
    simp
  unfold detach
  simp only [hbefore]
  rw [← hindex, excised, (sameSlots_handOver b id before fun _ => true).slotsOf_eq]

/-- What taking a definition out does: it is loose, its readers observe its predecessor, and
everything else is in step. -/
structure Detached (b b' : Bindings) (id : SlotId) (name : String) (former : Former) : Prop
    extends Listed b' (some id), Claimed b' where
  insertion : ∃ p l₁ before l₂, Insertion b' b id name p l₁ before l₂
  within : b'.Within
  rebound : Rebound b b' former
  loose_stored : ∃ slot, b'.slots[id]? = some slot ∧ slot.name = name

theorem detached (hb : b.Listed none) (hc : b.Claimed) (hw : b.Within)
    (hslot : b.slots[id]? = some slot) (hplace : slot.place = .placed p) :
    Detached b (b.detach id slot).1 id slot.name (b.detach id slot).2 := by
  obtain ⟨l₁, before, l₂, hids, hindex⟩ := hb.exists_before hslot (by simp) (by simp [hplace])
  have hplace? : b.place? id = some (.placed p) := by rw [place?, hslot, Option.map_some, hplace]
  have hins := insertion_excised hb hplace? hids
  obtain ⟨t, ht, htname⟩ := hb.stored_of_mem
    (show before ∈ b.slotsOf slot.name by simp [hids])
  have hdistinct : id ≠ before := by
    rintro rfl
    exact hins.not_mem slot.name (by rw [hins.without]; simp)
  rw [detach_eq hids hindex]
  -- first the readers are handed over
  set c := (b.handOver id before fun _ => true).1 with hcdef
  have hsame : SameSlots b c := sameSlots_handOver b id before fun _ => true
  have hcids : c.slotsOf slot.name = l₁ ++ before :: id :: l₂ := by rw [hsame.slotsOf_eq, hids]
  have hcplace : c.place? id = some (.placed p) := by rw [hsame.place?_eq, hplace?]
  obtain ⟨s, hs, hskeleton⟩ := hsame.symm.exists_slot hslot
  have hsname : s.name = slot.name := by
    simp only [Slot.skeleton, Slot.mk.injEq] at hskeleton
    exact hskeleton.1.symm
  have hcl := hsame.listed hb
  have hcclaimed : c.Claimed := hc.handOver hslot ht hdistinct htname
  -- and then the list is changed
  have hcins := insertion_excised hcl hcplace hcids
  have hclisted := listed_excised hcl hcids hcins
  set d := c.excised slot.name (l₁.length + 1) with hddef
  have hnodup : (d.slotsOf slot.name).Nodup := hcins.nodup
  have hdplace : ∀ x, (d.reindex slot.name).place? x = c.place? x := place?_reindex hnodup
  have hdclaimed₀ : d.Claimed := hcclaimed.of_eq (fun _ => rfl) fun _ => rfl
  have hdclaimed : (d.reindex slot.name).Claimed :=
    hdclaimed₀.reindex hnodup
  have hinsertion : Insertion (d.reindex slot.name) b id slot.name p l₁ before l₂ :=
    { hcins with
      slotsOf := fun n => by rw [← hsame.slotsOf_eq, hcins.slotsOf, slotsOf_reindex]
      place := fun x => by rw [← hsame.place?_eq, hcins.place, hdplace]; rfl
      upTo := by
        intro x hx
        rw [isUpTo_congr hdplace]
        exact hcins.upTo x hx }
  refine { hclisted, hdclaimed with
    insertion := ⟨p, l₁, before, l₂, hinsertion⟩
    within := ?_
    rebound := ?_
    loose_stored := ?_ }
  · intro r reader' hr
    have hreaders := lookup_readers_handOver hc hslot before (fun _ => true) r
    rw [show (d.reindex slot.name).readers[r]? = c.readers[r]? from rfl, hcdef, hreaders] at hr
    obtain ⟨reader, hreader, rfl⟩ := Option.map_eq_some_iff.mp hr
    have hold := hw hreader
    by_cases hmoved : reader.slot = id
    · simp only [hmoved, and_self, if_true]
      rw [hinsertion.lastUpTo?_without, hold, if_pos (by rw [hmoved])]
    · simp only [hmoved, false_and, if_false]
      rw [hinsertion.lastUpTo?_without, hold, if_neg (by simpa using hmoved)]
  · have hexcised : Rebound c d [] := Rebound.of_readers_eq (fun _ => rfl) (fun _ => rfl) rfl
    have := ((rebound_handOver hc hslot before fun _ => true).trans
      hexcised).trans (rebound_reindex hnodup)
    simpa using this
  · obtain ⟨i, hi⟩ := exists_reindex hnodup id
    rw [hi, show d.slots[id]? = c.slots[id]? from rfl, hs]
    exact ⟨_, rfl, hsname⟩

/-! ### Moving a definition between its neighbours -/

/-- The bindings with a definition at another position, with the readers as they were. -/
def shifted (b : Bindings) (id : SlotId) (slot : Slot) (p : Position) : Bindings :=
  { b with slots := b.slots.insert id { slot with place := .placed p } }

theorem lookup_slots_shifted (x : SlotId) :
    (b.shifted id slot p).slots[x]? =
      if id = x then some { slot with place := .placed p } else b.slots[x]? :=
  lookup_insert _ _ _ _

theorem place?_shifted (x : SlotId) :
    (b.shifted id slot p).place? x = if x = id then some (.placed p) else b.place? x := by
  rw [place?, lookup_slots_shifted]
  by_cases h : id = x
  · rw [if_pos h, if_pos h.symm, Option.map_some]
  · rw [if_neg h, if_neg (Ne.symm h), place?]

theorem Claimed.shifted (hc : b.Claimed) (hslot : b.slots[id]? = some slot) (p : Position) :
    (b.shifted id slot p).Claimed := by
  refine hc.of_eq (fun x => ?_) fun _ => rfl
  rw [lookup_slots_shifted]
  by_cases hx : id = x
  · rw [if_pos hx, ← hx, hslot]
    rfl
  · rw [if_neg hx]

/-- A definition that stays between its neighbours is not before the first, and before the
second. -/
theorem staysBetween_iff (hids : b.slotsOf slot.name = l₁ ++ before :: id :: l₂)
    (hindex : slot.index = l₁.length + 1) (place : SlotPlace) :
    b.staysBetween slot place = true ↔
      b.isUpTo place before = true ∧ ∀ y, l₂.head? = some y → b.isUpTo place y = false := by
  have hbefore : (b.slotsOf slot.name)[slot.index - 1]? = some before := by
    rw [hindex, hids]
    simp
  have hnext : (b.slotsOf slot.name)[slot.index + 1]? = l₂.head? := by
    rw [hindex, hids, List.append_cons, List.append_cons, List.head?_eq_getElem?,
      List.getElem?_append_right (by simp)]
    congr 1
    simp
  unfold staysBetween
  simp only [hbefore, hnext]
  cases l₂.head? <;> simp

/-- All that follows a definition that stays between its neighbours is after it. -/
theorem Listed.after_of_staysBetween (hb : b.Listed none)
    (hids : b.slotsOf slot.name = l₁ ++ before :: id :: l₂) (hindex : slot.index = l₁.length + 1)
    (hstays : b.staysBetween slot (.placed p) = true) :
    ∀ y ∈ l₂, b.isUpTo (.placed p) y = false := by
  have hcut : b.slotsOf slot.name = (l₁ ++ [before, id]) ++ l₂ := by
    rw [hids]
    simp
  exact hb.after_of_head? hcut ((staysBetween_iff hids hindex _).mp hstays).2

theorem insertion_shifted (hb : b.Listed none) (slot : Slot)
    (hids : b.slotsOf name = l₁ ++ before :: id :: l₂)
    (hplace : b.place? id = some (.placed old)) (hbefore : b.isUpTo (.placed p) before = true) :
    Insertion (b.excised name (l₁.length + 1)) (b.shifted id slot p) id name p l₁ before l₂ := by
  have hins := insertion_excised hb hplace hids
  refine { hins with
    slotsOf := hins.slotsOf
    place := fun x => ?_
    upTo := fun x hx => ?_ }
  · rw [place?_shifted, place?_excised]
  · rcases List.mem_append.mp hx with hx | hx
    · -- the slots before the predecessor are not after it
      obtain ⟨q, hq, hqp⟩ := isUpTo_eq_true_iff.mp hbefore
      have hordered := hb.ordered name
      rw [hids, List.pairwise_append] at hordered
      obtain ⟨s, hs, -⟩ := hb.stored_of_mem (show x ∈ b.slotsOf name by simp [hids, hx])
      have hxs : b.place? x = some s.place := by rw [place?, hs, Option.map_some]
      have hle := hordered.2.2 x hx before List.mem_cons_self _ _ hxs hq
      exact isUpTo_eq_true_iff.mpr ⟨_, hxs, SlotPlace.le_trans hle hqp⟩
    · rw [List.mem_singleton.mp hx]
      exact hbefore

theorem listed_shifted (hb : b.Listed none) (hslot : b.slots[id]? = some slot)
    (hplace : slot.place = .placed old)
    (h : Insertion (b.excised name (l₁.length + 1)) (b.shifted id slot p) id name p l₁ before l₂)
    (hids : b.slotsOf name = l₁ ++ before :: id :: l₂)
    (hafter : ∀ y ∈ l₂, ∀ q, b.place? y = some q → .placed p ≤ q) :
    (b.shifted id slot p).Listed none where
  ne_nil := hb.ne_nil
  stored {n i x} hx := by
    obtain ⟨s, hs, hsname, hsindex, hsplace⟩ := hb.stored hx
    rw [lookup_slots_shifted]
    by_cases hxid : id = x
    · subst hxid
      rw [hslot] at hs
      cases hs
      rw [if_pos rfl]
      refine ⟨_, rfl, hsname, hsindex, ?_⟩
      rw [← hsplace, hplace]
      simp
    · rw [if_neg hxid]
      exact ⟨s, hs, hsname, hsindex, hsplace⟩
  listed {x s} hx hl := by
    rw [lookup_slots_shifted] at hx
    by_cases hxid : id = x
    · subst hxid
      rw [if_pos rfl] at hx
      cases hx
      have hold := hb.listed hslot (by simp)
      exact hold
    · rw [if_neg hxid] at hx
      exact hb.listed hx hl
  not_mem_of_loose hl := by simp at hl
  ordered := h.pairwise_le hafter (ordered_excised hb hids)

/-- What moving a definition between its neighbours does. -/
structure Shifted (b b' : Bindings) (id : SlotId) (p : Position) (former : Former) : Prop
    extends Listed b' none, Claimed b' where
  slotsOf : ∀ n : String, b'.slotsOf n = b.slotsOf n
  place : ∀ x, b'.place? x = if x = id then some (.placed p) else b.place? x
  within : b'.Within
  rebound : Rebound b b' former

/-- The part of a move that is done after the definition is at its new position. -/
theorem shifted_handOver (hb : b.Listed none) (hc : b.Claimed) (hw : b.Within)
    (hslot : b.slots[id]? = some slot) (hplace : slot.place = .placed old)
    (hids : b.slotsOf slot.name = l₁ ++ before :: id :: l₂) (hindex : slot.index = l₁.length + 1)
    (hstays : b.staysBetween slot (.placed p) = true) {source target : SlotId}
    {select : Position → Bool}
    (hends : source = before ∧ target = id ∨ source = id ∧ target = before)
    (hselect : ∀ q,
      (if p ≤ q then id else before)
        = if (if old ≤ q then id else before) = source ∧ select q = true then target
          else if old ≤ q then id else before) :
    Shifted b ((b.shifted id slot p).handOver source target select).1 id p
      ((b.shifted id slot p).handOver source target select).2 := by
  obtain ⟨hbefore, -⟩ := (staysBetween_iff hids hindex _).mp hstays
  have hplace? : b.place? id = some (.placed old) := by
    rw [place?, hslot, Option.map_some, hplace]
  have hins := insertion_excised hb hplace? hids
  have hins' := insertion_shifted hb slot hids hplace? hbefore
  have hafter : ∀ y ∈ l₂, ∀ q, b.place? y = some q → SlotPlace.placed p ≤ q := by
    intro y hy q hq
    have hy := hb.after_of_staysBetween hids hindex hstays y hy
    rw [isUpTo, hq] at hy
    exact SlotPlace.le_of_lt (SlotPlace.not_le.mp (by simpa using hy))
  have hlisted := listed_shifted hb hslot hplace hins' hids hafter
  set c := b.shifted id slot p with hcdef
  have hdistinct : before ≠ id := by
    rintro rfl
    exact hins.not_mem slot.name (by rw [hins.without]; simp)
  have hcid : c.slots[id]? = some { slot with place := .placed p } := by
    rw [hcdef, lookup_slots_shifted, if_pos rfl]
  have hclaimed : c.Claimed := hc.shifted hslot p
  obtain ⟨t, ht, htname⟩ := hlisted.stored_of_mem
    (show before ∈ b.slotsOf slot.name by simp [hids])
  have hrebound : Rebound b c [] := by
    refine Rebound.of_readers_eq (fun _ => rfl) (fun x => ?_) rfl
    rw [hcdef, value?, value?, lookup_slots_shifted]
    by_cases hx : id = x
    · rw [if_pos hx, ← hx, hslot]
      rfl
    · rw [if_neg hx]
  obtain ⟨s, hs, hsclaimed⟩ : ∃ s, c.slots[source]? = some s ∧
      (c.handOver source target select).1.Claimed := by
    rcases hends with ⟨rfl, rfl⟩ | ⟨rfl, rfl⟩
    · exact ⟨t, ht, hclaimed.handOver ht hcid hdistinct htname.symm⟩
    · exact ⟨_, hcid, hclaimed.handOver hcid ht (Ne.symm hdistinct) htname⟩
  have hsame := sameSlots_handOver c source target select
  refine { hsame.listed hlisted, hsclaimed with
    slotsOf := fun n => hsame.slotsOf_eq n
    place := fun x => by rw [hsame.place?_eq, hcdef, place?_shifted]
    within := ?_
    rebound := hrebound.trans (rebound_handOver hclaimed hs _ _) }
  refine hw.of_handOver hclaimed hs (fun _ => rfl) fun n q x hx => ?_
  rw [hins.lastUpTo?_eq] at hx
  rw [hins'.lastUpTo?_eq]
  set m := (b.excised slot.name (l₁.length + 1)).lastUpTo? n q with hm
  by_cases hreach : n = slot.name ∧ m = some before
  · -- the slot observed is the definition or its predecessor
    have hold : x = if old ≤ q then id else before := by
      by_cases hq : old ≤ q
      · rw [if_pos ⟨hreach.1, hq, hreach.2⟩, Option.some.injEq] at hx
        rw [if_pos hq, hx]
      · rw [if_neg (fun h => hq h.2.1), hreach.2, Option.some.injEq] at hx
        rw [if_neg hq, hx]
    rw [hold, ← hselect]
    by_cases hq : p ≤ q
    · rw [if_pos ⟨hreach.1, hq, hreach.2⟩, if_pos hq]
    · rw [if_neg (fun h => hq h.2.1), if_neg hq, hreach.2]
  · -- it is neither, and stays
    rw [if_neg (fun h => hreach ⟨h.1, h.2.2⟩)] at hx
    rw [if_neg (fun h => hreach ⟨h.1, h.2.2⟩), hx]
    have hmem := mem_of_lastUpTo? hx
    have hxid : x ≠ id := fun h => hins.not_mem n (h ▸ hmem)
    have hxbefore : x ≠ before := by
      rintro rfl
      refine hreach ⟨?_, hx⟩
      have hn : x ∈ b.slotsOf n := by
        rw [slotsOf_excised hids] at hmem
        by_cases hn : n = slot.name
        · rw [hn, hids]
          simp
        · rwa [if_neg hn] at hmem
      exact hb.name_eq_of_mem hn (by simp [hids])
    have hsource : x ≠ source := by
      rcases hends with ⟨rfl, -⟩ | ⟨rfl, -⟩
      · exact hxbefore
      · exact hxid
    rw [if_neg (fun h => hsource h.1)]

end Bindings

end MathCanvas
