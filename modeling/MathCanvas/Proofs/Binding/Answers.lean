import MathCanvas.Proofs.Binding.Refinement

/-!
# Bindings answer as their outline does

A run of operations on a table and the same run on an outline stay related (`refines_run`). Related,
they answer every question alike: the slots of a name, what a reader observes, the value of a slot,
the readers of a slot, the names in use and the names that are imported. `run_refines_outline`
collects this.
-/

namespace MathCanvas

namespace Bindings

variable {b : Bindings} {o : Outline} {id : SlotId} {name : String} {p : Position}

/-! ### Operations -/

/-- The slot of a definition. -/
theorem Refines.exists_slot (h : Refines b o) (hb : b.Sound) {d : Definition}
    (hd : o.definitions[id]? = some d) :
    ∃ slot, b.slots[id]? = some slot ∧ slot.name = d.name ∧ slot.place = .placed d.position := by
  obtain ⟨hmem, hplace, -⟩ := h.definition hd
  obtain ⟨slot, hslot, hname⟩ := hb.stored_of_mem hmem
  refine ⟨slot, hslot, hname, ?_⟩
  rw [place?, hslot, Option.map_some] at hplace
  exact Option.some.inj hplace

/-- What is no definition of the outline is not placed in the table. -/
theorem Refines.not_placed (h : Refines b o) (hd : o.definitions[id]? = none) {slot : Slot}
    (hslot : b.slots[id]? = some slot) : slot.place = .importer := by
  cases hp : slot.place with
  | importer => rfl
  | placed q =>
    obtain ⟨d, hd'⟩ := h.exists_definition
      (show b.place? id = some (.placed q) by rw [place?, hslot, Option.map_some, hp])
    rw [hd] at hd'
    cases hd'

theorem Refines.call (h : Refines b o) (hb : b.Consistent) (c : BindingCall) :
    Refines (b.call c).2 (o.call c) := by
  cases c with
  | addDefinition name p =>
    obtain ⟨c, opened, ho, hadded, -⟩ := addDefinition_spec hb name p
    exact (h.openName hb ho).added hadded
  | moveDefinition id p =>
    show Refines (b.moveDefinition id p).2 (o.moveDefinition id p)
    rw [Outline.moveDefinition]
    cases hd : o.definitions[id]? with
    | none =>
      have hsame : b.moveDefinition id p = ({}, b) := by
        cases hslot : b.slots[id]? with
        | none => exact moveDefinition_of_none hslot
        | some slot => exact moveDefinition_of_importer hslot (h.not_placed hd hslot)
      rw [hsame]
      exact h
    | some d =>
      obtain ⟨slot, hslot, hname, hplace⟩ := h.exists_slot hb.toSound hd
      by_cases hsame : d.position.same p = true
      · rw [moveDefinition_of_same hslot hplace hsame]
        simp only [hsame, if_true]
        exact h
      · simp only [hsame, if_false, Bool.false_eq_true]
        have hmoved := (moveDefinition_spec hb hslot hplace (by simpa using hsame)).1
        rw [hname] at hmoved
        exact h.moved hd hmoved
  | removeDefinition id =>
    show Refines (b.removeDefinition id).2 (o.removeDefinition id)
    rw [Outline.removeDefinition]
    cases hd : o.definitions[id]? with
    | none =>
      have hsame : b.removeDefinition id = ({}, b) := by
        cases hslot : b.slots[id]? with
        | none => exact removeDefinition_of_none hslot
        | some slot => exact removeDefinition_of_importer hslot (h.not_placed hd hslot)
      rw [hsame]
      exact h
    | some d =>
      obtain ⟨slot, hslot, hname, hplace⟩ := h.exists_slot hb.toSound hd
      obtain ⟨c, hremoved, heq, -⟩ := removeDefinition_spec hb hslot (by simp [hplace])
      rw [heq, hname]
      refine (h.removed hb.toSound hremoved).closeName hremoved.toSound ?_
      obtain ⟨l₁, before, l₂, -, hslots⟩ := hremoved.slotsOf
      rw [hslots, if_pos hname.symm]
      simp
  | setValue id v => exact h.setValue hb id v
  | setImported name v => exact h.setImported hb name v
  | addReader name p =>
    obtain ⟨c, opened, ho, hid, hanchored, hnext, -⟩ := addReader_spec hb name p
    have hc := h.openName hb ho
    have hn : (o.openName name).nextId = c.nextId := hc.nextId
    refine hc.anchored hanchored (by rw [hn, hnext]) fun x => ?_
    rw [hn, hid, lookup_insert]
    by_cases hx : c.nextId = x
    · rw [if_pos hx, if_pos hx.symm]
    · rw [if_neg hx, if_neg (Ne.symm hx)]
  | moveReader id p =>
    show Refines (b.moveReader id p).2 (o.moveReader id p)
    cases hr : b.readers[id]? with
    | none =>
      have hnone : o.readers[id]? = none := by rw [h.anchor, anchor?, hr]; rfl
      rw [moveReader_of_none hr]
      refine { h with anchor := fun x => ?_ }
      rw [← h.anchor, Outline.moveReader, lookup_modify]
      split
      · rename_i hx
        rw [← hx, hnone]
        rfl
      · rfl
    | some reader =>
      obtain ⟨hanchored, hnext, -⟩ := moveReader_spec hb hr p
      refine h.anchored hanchored (by rw [hnext]; exact h.nextId) fun x => ?_
      rw [lookup_modify]
      by_cases hx : id = x
      · rw [if_pos hx, if_pos hx.symm, ← hx, h.anchor, anchor?, hr]
        rfl
      · rw [if_neg hx, if_neg (Ne.symm hx)]
  | removeReader id =>
    show Refines (b.removeReader id).2 (o.removeReader id)
    rw [Outline.removeReader]
    cases hr : b.readers[id]? with
    | none =>
      have hnone : o.readers[id]? = none := by rw [h.anchor, anchor?, hr]; rfl
      rw [removeReader_of_none hr, hnone]
      exact h
    | some reader =>
      have hsome : o.readers[id]? = some (reader.name, reader.position) := by
        rw [h.anchor, anchor?, hr]
        rfl
      obtain ⟨c, -, hdropped, heq, -⟩ := removeReader_spec hb hr
      rw [heq, hsome]
      refine (h.dropped hdropped).closeName hdropped.toSound ?_
      rw [hdropped.slotsOf]
      exact List.ne_nil_of_mem (mem_of_lastUpTo? (hb.within hr))

theorem refines_run (calls : List BindingCall) : Refines (run calls) (Outline.run calls) := by
  refine (run_induction (P := fun calls b => Refines b (Outline.run calls)) refines_empty
    (fun calls b c hb h => ?_) calls).2
  rw [Outline.run_append]
  exact h.call hb c

/-! ### Slots -/

/-- The definitions of a name in an outline, by their numbers. -/
theorem mem_definitionsOf {x : SlotId × Definition} :
    x ∈ o.definitionsOf name ↔ o.definitions[x.1]? = some x.2 ∧ x.2.name = name := by
  rw [Outline.definitionsOf, mem_sortBy, List.mem_filter,
    Std.TreeMap.mem_toList_iff_getElem?_eq_some, beq_iff_eq]

/-- Whether a definition stands before another one in an outline. -/
def StandsBefore (o : Outline) (x y : SlotId) : Prop :=
  ∃ d e, o.definitions[x]? = some d ∧ o.definitions[y]? = some e ∧ d.before e

theorem standsBefore_asymm (x y : SlotId) (h : StandsBefore o x y) : ¬StandsBefore o y x := by
  obtain ⟨d, e, hd, he, hde⟩ := h
  rintro ⟨e', d', he', hd', hed⟩
  rw [hd] at hd'
  rw [he] at he'
  cases hd'
  cases he'
  exact Definition.before_asymm hde hed

/-- The definitions in a table, if they are those of the outline, are sorted. -/
theorem Refines.pairwise_standsBefore (h : Refines b o) {l₁ l₂ : List SlotId}
    (hids : b.slotsOf name = l₁ ++ l₂) (hdefined : ∀ x ∈ l₂, ∃ d, o.definitions[x]? = some d) :
    l₂.Pairwise (StandsBefore o) := by
  have hsorted := h.sorted name
  rw [hids, List.pairwise_append] at hsorted
  refine hsorted.2.1.imp_of_mem ?_
  intro x y hx hy hxy
  obtain ⟨d, hd⟩ := hdefined x hx
  obtain ⟨e, he⟩ := hdefined y hy
  exact ⟨d, e, hd, he, hxy d e hd he⟩

theorem nodup_toList {κ β : Type} {cmp : κ → κ → Ordering} [Std.TransCmp cmp]
    (t : Std.TreeMap κ β cmp) : t.toList.Nodup := by
  have hkeys : (t.toList.map Prod.fst).Nodup := by
    rw [Std.TreeMap.map_fst_toList_eq_keys]
    exact Std.TreeMap.nodup_keys
  exact hkeys.of_map

/-- The definitions of a name in the outline are sorted, if any two of them are comparable. -/
theorem pairwise_definitionsOf (hcomparable : ∀ x y : SlotId × Definition,
    x ∈ o.definitionsOf name → y ∈ o.definitionsOf name → x.1 ≠ y.1 →
      x.2.before y.2 ∨ y.2.before x.2) :
    ((o.definitionsOf name).map Prod.fst).Pairwise (StandsBefore o) := by
  rw [List.pairwise_map]
  have htotal : ∀ x y : SlotId × Definition, x.2.le y.2 = true ∨ y.2.le x.2 = true :=
    fun x y => Definition.le_total x.2 y.2
  have htrans : ∀ x y z : SlotId × Definition, x.2.le y.2 = true → y.2.le z.2 = true →
      x.2.le z.2 = true := fun x y z => Definition.le_trans
  have hle : (o.definitionsOf name).Pairwise fun x y => x.2.le y.2 = true := by
    rw [Outline.definitionsOf]
    exact pairwise_sortBy htotal htrans _
  have hnodup : (o.definitionsOf name).Nodup :=
    (perm_sortBy _ _).nodup_iff.mpr ((nodup_toList _).filter _)
  refine (hle.and hnodup).imp_of_mem ?_
  rintro ⟨x, d⟩ ⟨y, e⟩ hx hy ⟨hde, hne⟩
  have hd : o.definitions[x]? = some d := (mem_definitionsOf.mp hx).1
  have he : o.definitions[y]? = some e := (mem_definitionsOf.mp hy).1
  have hxy : x ≠ y := by
    rintro rfl
    rw [hd, Option.some.injEq] at he
    exact hne (by rw [he])
  exact ⟨d, e, hd, he, Definition.before_of_le hde (hcomparable (x, d) (y, e) hx hy hxy)⟩

/-- The list of a name: its importer, and then the definitions in order. -/
theorem Refines.exists_slotsOf (h : Refines b o) (hb : b.Sound) (hne : b.slotsOf name ≠ []) :
    ∃ importer v, b.slotsOf name = importer :: (o.definitionsOf name).map Prod.fst ∧
      o.importers[name]? = some (importer, v) ∧ b.place? importer = some .importer ∧
      b.value? importer = some v := by
  obtain ⟨importer, rest, hids, himporter, hrest⟩ := hb.exists_cons hne
  obtain ⟨slot, hslot, -⟩ := hb.stored_of_mem (show importer ∈ b.slotsOf name by simp [hids])
  have hvalue : b.value? importer = some slot.value := by rw [value?, hslot, Option.map_some]
  have hdefined : ∀ x ∈ rest, ∃ d, o.definitions[x]? = some d ∧ d.name = name := by
    intro x hx
    obtain ⟨q, hq⟩ := hrest x hx
    obtain ⟨d, hd⟩ := h.exists_definition hq
    refine ⟨d, hd, hb.name_eq_of_mem (h.definition hd).1 ?_⟩
    rw [hids]
    exact List.mem_cons_of_mem _ hx
  have hmem : ∀ x, x ∈ rest ↔ x ∈ (o.definitionsOf name).map Prod.fst := by
    intro x
    rw [List.mem_map]
    constructor
    · intro hx
      obtain ⟨d, hd, hname⟩ := hdefined x hx
      exact ⟨(x, d), mem_definitionsOf.mpr ⟨hd, hname⟩, rfl⟩
    · rintro ⟨entry, hentry, rfl⟩
      obtain ⟨hd, hname⟩ := mem_definitionsOf.mp hentry
      obtain ⟨hmem, hplace, -⟩ := h.definition hd
      rw [hname, hids] at hmem
      refine (List.mem_cons.mp hmem).resolve_left fun heq => ?_
      rw [heq, himporter] at hplace
      cases hplace
  have hleft : rest.Pairwise (StandsBefore o) :=
    h.pairwise_standsBefore (show b.slotsOf name = [importer] ++ rest from hids) fun x hx =>
      (hdefined x hx).imp fun _ hd => hd.1
  have hright : ((o.definitionsOf name).map Prod.fst).Pairwise (StandsBefore o) := by
    refine pairwise_definitionsOf fun x y hx hy hxy => ?_
    -- one of the two stands before the other in the list of the table
    obtain ⟨i, hi, hix⟩ := List.getElem_of_mem ((hmem x.1).mpr (List.mem_map_of_mem hx))
    obtain ⟨j, hj, hjy⟩ := List.getElem_of_mem ((hmem y.1).mpr (List.mem_map_of_mem hy))
    have hd := (mem_definitionsOf.mp hx).1
    have he := (mem_definitionsOf.mp hy).1
    have hpairs := List.pairwise_iff_getElem.mp hleft
    have hbefore : ∀ {x y : SlotId × Definition}, o.definitions[x.1]? = some x.2 →
        o.definitions[y.1]? = some y.2 → StandsBefore o x.1 y.1 → x.2.before y.2 := by
      rintro x y hx hy ⟨d, e, hd, he, hde⟩
      rw [hx] at hd
      rw [hy] at he
      cases hd
      cases he
      exact hde
    rcases Nat.lt_trichotomy i j with hij | hij | hij
    · exact .inl (hbefore hd he (by rw [← hix, ← hjy]; exact hpairs i j hi hj hij))
    · subst hij
      exact absurd (hix.symm.trans hjy) hxy
    · exact .inr (hbefore he hd (by rw [← hix, ← hjy]; exact hpairs j i hj hi hij))
  refine ⟨importer, slot.value, ?_, ?_, himporter, hvalue⟩
  · rw [hids, eq_of_mem_iff_of_pairwise standsBefore_asymm hleft hright hmem]
  · rw [h.importer, importer?, hids, List.head?_cons, Option.bind_some, hvalue, Option.map_some]

theorem Refines.slots_eq (h : Refines b o) (hb : b.Sound) (name : String) :
    b.slotsOf name = o.slots name := by
  rw [Outline.slots]
  by_cases hne : b.slotsOf name = []
  · rw [h.importer, importer?, hne]
    rfl
  · obtain ⟨importer, v, hids, himporter, -⟩ := h.exists_slotsOf hb hne
    rw [hids, himporter]

theorem Refines.value?_eq (h : Refines b o) (hb : b.Sound) (id : SlotId) :
    b.value? id = o.value? id := by
  rw [Outline.value?]
  cases hd : o.definitions[id]? with
  | some d => exact (h.definition hd).2.2.1
  | none =>
    simp only
    cases hfind : o.importers.toList.find? fun entry => entry.2.1 == id with
    | none =>
      -- a stored slot is a definition or the importer of its name
      cases hslot : b.slots[id]? with
      | none => rw [value?, hslot]; rfl
      | some slot =>
        exfalso
        have hmem := hb.mem_slotsOf hslot (by simp)
        obtain ⟨importer, v, hids, himporter, -⟩ := h.exists_slotsOf hb (List.ne_nil_of_mem hmem)
        rw [hids] at hmem
        rcases List.mem_cons.mp hmem with rfl | hmem
        · rw [List.find?_eq_none] at hfind
          have := hfind _ (Std.TreeMap.mem_toList_iff_getElem?_eq_some.mpr himporter)
          simp at this
        · obtain ⟨entry, hentry, rfl⟩ := List.mem_map.mp hmem
          rw [(mem_definitionsOf.mp hentry).1] at hd
          cases hd
    | some entry =>
      have himporter := Std.TreeMap.mem_toList_iff_getElem?_eq_some.mp
        (List.mem_of_find?_eq_some hfind)
      have hid : entry.2.1 = id := by simpa using List.find?_some hfind
      rw [h.importer] at himporter
      obtain ⟨x, -, hx⟩ := Option.bind_eq_some_iff.mp himporter
      obtain ⟨v, hv, heq⟩ := Option.map_eq_some_iff.mp hx
      rw [← heq] at hid
      rw [Option.map_some, ← heq, ← hid, hv]

/-! ### Readers -/

theorem Refines.binding?_eq (h : Refines b o) (hb : b.Sound) (r : ReaderId) :
    b.binding? r = o.binding? r := by
  rw [Outline.binding?, h.anchor, anchor?, binding?]
  cases hr : b.readers[r]? with
  | none => rfl
  | some reader =>
    have hlast := hb.within hr
    obtain ⟨importer, v, hids, himporter, hplace, -⟩ :=
      h.exists_slotsOf hb (List.ne_nil_of_mem (mem_of_lastUpTo? hlast))
    simp only [Option.map_some, Reader.anchor]
    have himporterUpTo : b.isUpTo (.placed reader.position) importer = true :=
      isUpTo_eq_true_iff.mpr ⟨_, hplace, SlotPlace.importer_le _⟩
    have hfilter : ((o.definitionsOf reader.name).map Prod.fst).filter
        (b.isUpTo (.placed reader.position)) =
        ((o.definitionsOf reader.name).filter fun entry =>
          decide (entry.2.position ≤ reader.position)).map Prod.fst := by
      rw [List.filter_map]
      congr 1
      apply List.filter_congr
      intro entry hentry
      have hentryPlace := (h.definition (mem_definitionsOf.mp hentry).1).2.1
      rw [Function.comp_apply, isUpTo, hentryPlace]
      rfl
    rw [← hlast, lastUpTo?, hids, List.filter_cons_of_pos himporterUpTo, hfilter,
      List.getLast?_cons, List.getLast?_map, himporter]
    cases ((o.definitionsOf reader.name).filter fun entry =>
      decide (entry.2.position ≤ reader.position)).getLast? <;> rfl

theorem Refines.readerValue?_eq (h : Refines b o) (hb : b.Sound) (r : ReaderId) :
    b.readerValue? r = o.readerValue? r := by
  rw [readerValue?, Outline.readerValue?, h.binding?_eq hb, funext (h.value?_eq hb)]

/-! ### The readers of a slot -/

theorem outline_readerLe_iff {x y : ReaderId × String × Position} :
    Outline.readerLe x y = true ↔ x.2.2 < y.2.2 ∨ ¬y.2.2 < x.2.2 ∧ x.1 ≤ y.1 := by
  simp only [Outline.readerLe, Bool.or_eq_true, Bool.and_eq_true, Bool.not_eq_true',
    decide_eq_true_eq, decide_eq_false_iff_not]

/-- The strict document order of the readers of an outline. -/
def Precedes (o : Outline) (r s : ReaderId) : Prop :=
  ∃ x y, o.readers[r]? = some x ∧ o.readers[s]? = some y ∧
    (x.2 < y.2 ∨ ¬y.2 < x.2 ∧ r < s)

theorem precedes_asymm (r s : ReaderId) (h : Precedes o r s) : ¬Precedes o s r := by
  obtain ⟨x, y, hx, hy, hxy⟩ := h
  rintro ⟨y', x', hy', hx', hyx⟩
  rw [hx, Option.some.injEq] at hx'
  rw [hy, Option.some.injEq] at hy'
  subst hx' hy'
  exact document_asymm hxy hyx

theorem Sound.mem_readersOf (hb : b.Sound) {r : ReaderId} :
    r ∈ b.readersOf id ↔ b.binding? r = some id := by
  unfold readersOf binding?
  constructor
  · intro h
    cases hslot : b.slots[id]? with
    | none => simp [hslot] at h
    | some slot =>
      simp only [hslot, sortReaders, mem_sortBy] at h
      obtain ⟨reader, hreader, hbound⟩ := hb.observes hslot h
      rw [hreader, Option.map_some, hbound]
  · intro h
    obtain ⟨reader, hreader, rfl⟩ := Option.map_eq_some_iff.mp h
    obtain ⟨slot, hslot, -, hin⟩ := hb.held hreader
    simp only [hslot, sortReaders, mem_sortBy]
    exact hin

theorem Sound.nodup_readersOf (hb : b.Sound) (id : SlotId) : (b.readersOf id).Nodup := by
  unfold readersOf
  cases hslot : b.slots[id]? with
  | none => exact List.nodup_nil
  | some slot => exact (perm_sortBy _ _).nodup_iff.mpr (hb.nodup hslot)

theorem mem_outline_readersOf {r : ReaderId} :
    r ∈ o.readersOf id ↔ o.binding? r = some id := by
  rw [Outline.readersOf, List.mem_map]
  constructor
  · rintro ⟨entry, hentry, rfl⟩
    rw [mem_sortBy, List.mem_filter] at hentry
    simpa using hentry.2
  · intro h
    have hsome : ∃ x, o.readers[r]? = some x := by
      unfold Outline.binding? at h
      cases hr : o.readers[r]? with
      | none => simp [hr] at h
      | some x => exact ⟨x, rfl⟩
    obtain ⟨x, hx⟩ := hsome
    refine ⟨(r, x), ?_, rfl⟩
    rw [mem_sortBy, List.mem_filter]
    exact ⟨Std.TreeMap.mem_toList_iff_getElem?_eq_some.mpr hx, by simp [h]⟩

theorem Refines.readersOf_eq (h : Refines b o) (hb : b.Sound) (id : SlotId) :
    b.readersOf id = o.readersOf id := by
  refine eq_of_mem_iff_of_pairwise (precedes_asymm (o := o)) ?_ ?_ fun r => ?_
  · have hle : (b.readersOf id).Pairwise fun r s => b.readerLe r s = true := by
      unfold readersOf
      cases b.slots[id]? with
      | none => exact List.Pairwise.nil
      | some slot => exact pairwise_sortBy b.readerLe_total b.readerLe_trans _
    refine (hle.and (hb.nodup_readersOf id)).imp_of_mem ?_
    rintro r s hr hs ⟨hrs, hne⟩
    obtain ⟨x, hx, -⟩ := Option.map_eq_some_iff.mp (hb.mem_readersOf.mp hr)
    obtain ⟨y, hy, -⟩ := Option.map_eq_some_iff.mp (hb.mem_readersOf.mp hs)
    refine ⟨x.anchor, y.anchor, by rw [h.anchor, anchor?, hx]; rfl,
      by rw [h.anchor, anchor?, hy]; rfl, ?_⟩
    exact ((readerLe_iff hx hy).mp hrs).imp_right fun hrs =>
      ⟨hrs.1, Nat.lt_of_le_of_ne hrs.2 hne⟩
  · have htotal : ∀ x y, Outline.readerLe x y = true ∨ Outline.readerLe y x = true := by
      intro x y
      rw [outline_readerLe_iff, outline_readerLe_iff]
      exact document_total _ _ _ _
    have htrans : ∀ x y z, Outline.readerLe x y = true → Outline.readerLe y z = true →
        Outline.readerLe x z = true := by
      intro x y z hxy hyz
      rw [outline_readerLe_iff] at *
      exact document_trans hxy hyz
    rw [Outline.readersOf, List.pairwise_map]
    have hnodup : (sortBy Outline.readerLe
        (o.readers.toList.filter fun entry => o.binding? entry.1 == some id)).Nodup :=
      (perm_sortBy _ _).nodup_iff.mpr ((nodup_toList _).filter _)
    refine ((pairwise_sortBy htotal htrans _).and hnodup).imp_of_mem ?_
    rintro x y hx hy ⟨hxy, hne⟩
    rw [mem_sortBy, List.mem_filter] at hx hy
    have hx' := Std.TreeMap.mem_toList_iff_getElem?_eq_some.mp hx.1
    have hy' := Std.TreeMap.mem_toList_iff_getElem?_eq_some.mp hy.1
    refine ⟨x.2, y.2, hx', hy', ?_⟩
    refine (outline_readerLe_iff.mp hxy).imp_right fun hxy =>
      ⟨hxy.1, Nat.lt_of_le_of_ne hxy.2 fun heq => hne ?_⟩
    rw [heq, hy', Option.some.injEq] at hx'
    exact Prod.ext heq hx'.symm
  · rw [hb.mem_readersOf, mem_outline_readersOf, h.binding?_eq hb]

/-! ### Names -/

theorem Refines.mem_names_iff (h : Refines b o) (hb : b.Consistent) :
    name ∈ b.names ↔ o.isUsed name = true := by
  rw [h.isUsed_iff hb.toSound, names, mem_keys_iff_lookup]
  constructor
  · rintro ⟨ids, hl⟩
    refine ⟨fun hnil => hb.ne_nil name ?_, hb.not_idle⟩
    rw [hl, ← slotsOf_of_lookup hl, hnil]
  · rintro ⟨hne, -⟩
    exact ⟨_, lookup_of_slotsOf_ne_nil hne⟩

theorem Refines.mem_importedNames_iff (h : Refines b o) (hb : b.Consistent) :
    name ∈ b.importedNames ↔ o.IsImported name := by
  have hread : ∀ x, b.isRead x = true ↔ ∃ r, b.binding? r = some x := by
    intro x
    rw [isRead]
    cases hslot : b.slots[x]? with
    | none =>
      simp only [Bool.false_eq_true, false_iff]
      rintro ⟨r, hr⟩
      obtain ⟨reader, hreader, rfl⟩ := Option.map_eq_some_iff.mp hr
      obtain ⟨slot, hslot', -⟩ := hb.held hreader
      rw [hslot] at hslot'
      cases hslot'
    | some slot =>
      constructor
      · intro hne
        obtain ⟨r, hr⟩ := List.exists_mem_of_ne_nil slot.readers (by simpa using hne)
        obtain ⟨reader, hreader, hbound⟩ := hb.observes hslot hr
        exact ⟨r, by rw [binding?, hreader, Option.map_some, hbound]⟩
      · rintro ⟨r, hr⟩
        obtain ⟨reader, hreader, rfl⟩ := Option.map_eq_some_iff.mp hr
        obtain ⟨slot', hslot', -, hin⟩ := hb.held hreader
        rw [hslot] at hslot'
        cases hslot'
        simpa using List.ne_nil_of_mem hin
  rw [importedNames, List.mem_filter, Option.any_eq_true]
  constructor
  · rintro ⟨-, importer, himporter, hisRead⟩
    obtain ⟨r, hr⟩ := (hread importer).mp hisRead
    have hne : b.slotsOf name ≠ [] := List.ne_nil_of_mem (List.mem_of_mem_head? himporter)
    obtain ⟨x, v, hids, hx, -⟩ := h.exists_slotsOf hb.toSound hne
    rw [importer?, hids, List.head?_cons, Option.some.injEq] at himporter
    subst himporter
    exact ⟨x, v, r, hx, by rw [← h.binding?_eq hb.toSound, hr]⟩
  · rintro ⟨importer, v, r, hx, hr⟩
    rw [h.importer] at hx
    obtain ⟨y, hy, hmap⟩ := Option.bind_eq_some_iff.mp hx
    obtain ⟨w, -, heq⟩ := Option.map_eq_some_iff.mp hmap
    cases heq
    have hne : b.slotsOf name ≠ [] := List.ne_nil_of_mem (List.mem_of_mem_head? hy)
    refine ⟨?_, importer, hy, (hread importer).mpr ⟨r, by rw [h.binding?_eq hb.toSound, hr]⟩⟩
    rw [names, mem_keys_iff_lookup]
    exact ⟨_, lookup_of_slotsOf_ne_nil hne⟩

/-! ### Numbers -/

theorem Refines.made_eq (h : Refines b o) (hb : b.Consistent) (c : BindingCall) :
    (b.call c).1.made = o.made? c := by
  cases c with
  | addDefinition name p =>
    obtain ⟨c, opened, ho, hadded, -⟩ := addDefinition_spec hb name p
    have hn := (h.openName hb ho).nextId
    show some (b.addDefinition name p).1 = some (o.numberFor name)
    rw [hadded.fresh, Outline.numberFor, hn]
  | addReader name p =>
    obtain ⟨c, opened, ho, hid, -⟩ := addReader_spec hb name p
    have hn := (h.openName hb ho).nextId
    show some (b.addReader name p).1 = some (o.numberFor name)
    rw [hid, Outline.numberFor, hn]
  | _ => rfl

/-! ### All questions -/

/-- A table and an outline give the same answers. -/
structure Agrees (b : Bindings) (o : Outline) : Prop where
  /-- The slots of a name are its importer and its definitions, by position and stamp. -/
  slots : ∀ name : String, b.slotsOf name = o.slots name
  place : ∀ {id : SlotId} {d : Definition}, o.definitions[id]? = some d →
    b.place? id = some (.placed d.position)
  value : ∀ id : SlotId, b.value? id = o.value? id
  anchor : ∀ r : ReaderId, b.anchor? r = o.readers[r]?
  /-- A reader observes the last slot of its name up to its position. -/
  binding : ∀ r : ReaderId, b.binding? r = o.binding? r
  readerValue : ∀ r : ReaderId, b.readerValue? r = o.readerValue? r
  readers : ∀ id : SlotId, b.readersOf id = o.readersOf id
  names : ∀ name : String, name ∈ b.names ↔ o.isUsed name = true
  importedNames : ∀ name : String, name ∈ b.importedNames ↔ o.IsImported name
  /-- Names are given once, in order. -/
  names_sorted : b.names.Pairwise fun n m => compare n m = .lt
  importedNames_sorted : b.importedNames.Pairwise fun n m => compare n m = .lt
  /-- The number that the next operation gives out. -/
  made : ∀ c : BindingCall, (b.call c).1.made = o.made? c

/-- After any run a table answers every question as the outline of the run does. -/
theorem run_refines_outline (calls : List BindingCall) :
    Agrees (run calls) (Outline.run calls) where
  slots := (refines_run calls).slots_eq (consistent_run calls).toSound
  place hd := ((refines_run calls).definition hd).2.1
  value := (refines_run calls).value?_eq (consistent_run calls).toSound
  anchor r := ((refines_run calls).anchor r).symm
  binding := (refines_run calls).binding?_eq (consistent_run calls).toSound
  readerValue := (refines_run calls).readerValue?_eq (consistent_run calls).toSound
  readers := (refines_run calls).readersOf_eq (consistent_run calls).toSound
  names _ := (refines_run calls).mem_names_iff (consistent_run calls)
  importedNames _ := (refines_run calls).mem_importedNames_iff (consistent_run calls)
  names_sorted := Std.TreeMap.ordered_keys
  importedNames_sorted := Std.TreeMap.ordered_keys.filter _
  made := (refines_run calls).made_eq (consistent_run calls)

end Bindings

end MathCanvas
