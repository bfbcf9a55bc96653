import MathCanvas.Proofs.Binding.Outline

/-!
# Bindings refine their outline

`Refines b o` relates a table to an outline that made the same operations: they have the same
definitions, importers and readers, and the lists of the table are sorted by position and stamp.
Every operation keeps the relation (`Refines.call`); that a list stays sorted when a definition is
put in behind all that are not after it is `Refines.sorted_insertion`. For related tables every
question has one answer (`Refines.slots_eq`, `Refines.binding?_eq` and the following), because a
list that is strictly sorted is determined by its members. `run_refines_outline` states this for all
runs.
-/

namespace MathCanvas

/-! ### The order of definitions -/

namespace Definition

theorem before_asymm {d e : Definition} (h : d.before e) : ¬e.before d := by
  simp only [before, Position.lt_def, Position.same, Bool.and_eq_true, beq_iff_eq] at *
  omega

theorem before_of_le {d e : Definition} (h : d.le e = true) (hcomparable : d.before e ∨ e.before d) :
    d.before e := by
  refine hcomparable.resolve_right fun h' => ?_
  simp only [le, before, Position.lt_def, Position.same, Bool.and_eq_true, beq_iff_eq,
    Bool.or_eq_true, decide_eq_true_eq] at *
  omega

theorem le_total (d e : Definition) : d.le e = true ∨ e.le d = true := by
  simp only [le, Position.lt_def, Position.same, Bool.and_eq_true, beq_iff_eq, Bool.or_eq_true,
    decide_eq_true_eq]
  omega

theorem le_trans {d e f : Definition} (h : d.le e = true) (h' : e.le f = true) :
    d.le f = true := by
  simp only [le, Position.lt_def, Position.same, Bool.and_eq_true, beq_iff_eq, Bool.or_eq_true,
    decide_eq_true_eq] at *
  omega

/-- A newcomer stands behind the definitions that are not after it. -/
theorem before_of_position_le {d e : Definition} (h : d.position ≤ e.position)
    (hs : d.stamp < e.stamp) : d.before e := by
  simp only [before, Position.lt_def, Position.le_def, Position.same, Bool.and_eq_true,
    beq_iff_eq] at *
  omega

end Definition

namespace Bindings

variable {b b' c : Bindings} {o : Outline} {id : SlotId} {name : String} {p : Position}

/-- That the slots of every name are sorted by position and stamp. -/
def SortedBy (b : Bindings) (definitions : Std.TreeMap SlotId Definition) : Prop :=
  ∀ name : String, (b.slotsOf name).Pairwise fun x y =>
    ∀ d e, definitions[x]? = some d → definitions[y]? = some e → d.before e

/-- A table and an outline with the same contents. -/
structure Refines (b : Bindings) (o : Outline) : Prop where
  definition : ∀ {id : SlotId} {d : Definition}, o.definitions[id]? = some d →
    id ∈ b.slotsOf d.name ∧ b.place? id = some (.placed d.position) ∧
      b.value? id = some d.value ∧ d.stamp < o.clock
  exists_definition : ∀ {id : SlotId} {p : Position}, b.place? id = some (.placed p) →
    ∃ d, o.definitions[id]? = some d
  importer : ∀ name : String, o.importers[name]? =
    (b.importer? name).bind fun importer => (b.value? importer).map fun v => (importer, v)
  anchor : ∀ r : ReaderId, o.readers[r]? = b.anchor? r
  sorted : b.SortedBy o.definitions
  nextId : o.nextId = b.nextId

theorem refines_empty : Refines empty {} where
  definition h := by simp at h
  exists_definition h := by simp [place?, empty] at h
  importer name := by simp [importer?, slotsOf, empty]
  anchor r := by simp [anchor?, empty]
  sorted name := by simp [slotsOf, empty]
  nextId := rfl

/-! ### Names in use -/

theorem isUsed_iff_exists : o.isUsed name = true ↔
    (∃ (id : SlotId) (d : Definition), o.definitions[id]? = some d ∧ d.name = name) ∨
      ∃ (r : ReaderId) (p : Position), o.readers[r]? = some (name, p) := by
  rw [Outline.isUsed, Bool.or_eq_true, List.any_eq_true, List.any_eq_true]
  refine or_congr ⟨?_, ?_⟩ ⟨?_, ?_⟩
  · rintro ⟨entry, hentry, hname⟩
    exact ⟨entry.1, entry.2, Std.TreeMap.mem_toList_iff_getElem?_eq_some.mp hentry,
      by simpa using hname⟩
  · rintro ⟨id, d, hd, hname⟩
    exact ⟨(id, d), Std.TreeMap.mem_toList_iff_getElem?_eq_some.mpr hd, by simpa using hname⟩
  · rintro ⟨⟨r, n, p⟩, hentry, hname⟩
    have hname : n = name := by simpa using hname
    exact ⟨r, p, hname ▸ Std.TreeMap.mem_toList_iff_getElem?_eq_some.mp hentry⟩
  · rintro ⟨r, p, hr⟩
    exact ⟨(r, name, p), Std.TreeMap.mem_toList_iff_getElem?_eq_some.mpr hr, by simp⟩

/-- In a sound table, the name of a reader is in use. -/
theorem Sound.ne_nil_of_anchor? (hb : b.Sound) {r : ReaderId}
    (h : b.anchor? r = some (name, p)) : b.slotsOf name ≠ [] := by
  obtain ⟨reader, hreader, heq⟩ := Option.map_eq_some_iff.mp h
  simp only [Reader.anchor, Prod.mk.injEq] at heq
  have hmem := mem_of_lastUpTo? (hb.within hreader)
  rw [heq.1] at hmem
  exact List.ne_nil_of_mem hmem

/-- A name has a definition or a reader iff it is in use, and not without need. -/
theorem Refines.isUsed_iff (h : Refines b o) (hb : b.Sound) :
    o.isUsed name = true ↔ b.slotsOf name ≠ [] ∧ ¬b.Idle name := by
  rw [isUsed_iff_exists]
  constructor
  · rintro (⟨id, d, hd, rfl⟩ | ⟨r, p, hr⟩)
    · obtain ⟨hmem, hplace, -⟩ := h.definition hd
      refine ⟨List.ne_nil_of_mem hmem, ?_⟩
      rintro ⟨importer, hids, -⟩
      obtain ⟨importer', rest, hcons, himporter, -⟩ := hb.exists_cons (List.ne_nil_of_mem hmem)
      rw [hids] at hcons hmem
      cases hcons
      rw [List.mem_singleton.mp hmem, himporter] at hplace
      cases hplace
    · rw [h.anchor] at hr
      refine ⟨hb.ne_nil_of_anchor? hr, ?_⟩
      rintro ⟨importer, -, hread⟩
      exact hread (hasReader_iff_anchor?.mpr ⟨r, p, hr⟩)
  · rintro ⟨hne, hidle⟩
    obtain ⟨importer, rest, hids, -, hrest⟩ := hb.exists_cons hne
    cases rest with
    | nil =>
      right
      by_contra hread
      refine hidle ⟨importer, hids, fun hhas => hread ?_⟩
      obtain ⟨r, p, hr⟩ := hasReader_iff_anchor?.mp hhas
      exact ⟨r, p, by rw [h.anchor, hr]⟩
    | cons x rest =>
      left
      obtain ⟨p, hp⟩ := hrest x List.mem_cons_self
      obtain ⟨d, hd⟩ := h.exists_definition hp
      refine ⟨x, d, hd, hb.name_eq_of_mem (h.definition hd).1 ?_⟩
      rw [hids]
      simp

theorem Consistent.not_idle (hb : b.Consistent) : ¬b.Idle name := by
  rintro ⟨importer, hids, hread⟩
  exact hread (hb.hasReader hids)

/-- An importer is no definition. -/
theorem Listed.importer?_ne {loose : Option SlotId} (hb : b.Listed loose) {x : SlotId}
    (hx : b.importer? name = some x) : b.place? x = some .importer := by
  have hne : b.slotsOf name ≠ [] := by
    rintro hnil
    rw [importer?, hnil] at hx
    cases hx
  obtain ⟨importer, rest, hids, himporter, -⟩ := hb.exists_cons hne
  rw [importer?, hids] at hx
  cases hx
  exact himporter

theorem Refines.openName (h : Refines b o) (hb : b.Consistent) {opened : List String}
    (ho : Opened b c name opened) : Refines c (o.openName name) := by
  have hused : o.isUsed name = true ↔ b.slotsOf name ≠ [] ∧ ¬b.Idle name := h.isUsed_iff hb.toSound
  by_cases hnil : b.slotsOf name = []
  · have hunused : ¬o.isUsed name = true := fun hu => (hused.mp hu).1 hnil
    rw [Outline.openName, if_neg hunused]
    have hfresh : ∀ {x : SlotId} {n : String}, x ∈ b.slotsOf n → x ≠ b.nextId := by
      rintro x n hx rfl
      exact hb.nextId_not_mem n hx
    have hslots : ∀ n, n ≠ name → c.slotsOf n = b.slotsOf n := fun n hn => by
      rw [ho.slotsOf, if_neg (fun hc => hn hc.1)]
    refine ⟨fun {id d} hd => ?_, fun {id p} hp => ?_, fun n => ?_, fun r => ?_, fun n => ?_, ?_⟩
    · obtain ⟨hmem, hplace, hvalue, hstamp⟩ := h.definition hd
      have hid := hfresh hmem
      refine ⟨?_, ?_, ?_, hstamp⟩
      · rw [hslots]
        · exact hmem
        · rintro hname
          rw [hname, hnil] at hmem
          cases hmem
      · rw [ho.place, if_neg (fun hc => hid hc.1), hplace]
      · rw [ho.value, if_neg (fun hc => hid hc.1), hvalue]
    · rw [ho.place] at hp
      split at hp
      · cases hp
      · exact h.exists_definition hp
    · rw [lookup_insert]
      by_cases hn : name = n
      · subst hn
        rw [if_pos rfl, importer?, ho.slotsOf, if_pos ⟨rfl, hnil⟩, List.head?_cons,
          Option.bind_some, ho.value, if_pos ⟨rfl, hnil⟩, h.nextId]
        rfl
      · rw [if_neg hn, h.importer, importer?, importer?, hslots n (Ne.symm hn)]
        cases hhead : (b.slotsOf n).head? with
        | none => rfl
        | some x =>
          have hid := hfresh (List.mem_of_mem_head? hhead)
          rw [Option.bind_some, Option.bind_some, ho.value, if_neg (fun hc => hid hc.1)]
    · rw [h.anchor, anchor?, anchor?, ho.readers]
    · by_cases hn : n = name
      · rw [ho.slotsOf, if_pos ⟨hn, hnil⟩]
        exact List.pairwise_singleton _ _
      · rw [hslots n hn]
        exact h.sorted n
    · rw [ho.nextId, if_pos hnil, h.nextId]
  · have hu : o.isUsed name = true := hused.mpr ⟨hnil, hb.not_idle⟩
    rw [Outline.openName, if_pos hu]
    refine ⟨fun {id d} hd => ?_, fun {id p} hp => ?_, fun n => ?_, fun r => ?_, fun n => ?_, ?_⟩
    · rw [ho.slotsOf, if_neg (fun hc => hnil hc.2), ho.place, if_neg (fun hc => hnil hc.2),
        ho.value, if_neg (fun hc => hnil hc.2)]
      exact h.definition hd
    · rw [ho.place, if_neg (fun hc => hnil hc.2)] at hp
      exact h.exists_definition hp
    · rw [h.importer, importer?, importer?, ho.slotsOf, if_neg (fun hc => hnil hc.2)]
      congr 1
      funext x
      rw [ho.value, if_neg (fun hc => hnil hc.2)]
    · rw [h.anchor, anchor?, anchor?, ho.readers]
    · rw [ho.slotsOf, if_neg (fun hc => hnil hc.2)]
      exact h.sorted n
    · rw [ho.nextId, if_neg hnil, h.nextId]

theorem Refines.closeName (h : Refines b o) (hb : b.Sound) (hne : b.slotsOf name ≠ []) :
    Refines (b.closeName name).1 (o.closeName name) := by
  have hused : o.isUsed name = true ↔ b.slotsOf name ≠ [] ∧ ¬b.Idle name := h.isUsed_iff hb
  by_cases hidle : b.Idle name
  · have hunused : ¬o.isUsed name = true := fun hu => (hused.mp hu).2 hidle
    rw [Outline.closeName, if_neg hunused]
    obtain ⟨importer, hids, hread⟩ := hidle
    have hv := vacated_closeName hb hids hread
    have himporter : b.place? importer = some .importer :=
      hb.importer?_ne (show b.importer? name = some importer by rw [importer?, hids]; rfl)
    refine ⟨fun {id d} hd => ?_, fun {id p} hp => ?_, fun n => ?_, fun r => ?_, fun n => ?_, ?_⟩
    · obtain ⟨hmem, hplace, hvalue, hstamp⟩ := h.definition hd
      have hid : id ≠ importer := by
        rintro rfl
        rw [himporter] at hplace
        cases hplace
      have hname : d.name ≠ name := by
        intro hname
        rw [hname, hids] at hmem
        exact hid (List.mem_singleton.mp hmem)
      rw [hv.slotsOf, if_neg hname, hv.place, if_neg hid, hv.value, if_neg hid]
      exact ⟨hmem, hplace, hvalue, hstamp⟩
    · rw [hv.place] at hp
      split at hp
      · cases hp
      · exact h.exists_definition hp
    · rw [lookup_erase, importer?, hv.slotsOf]
      by_cases hn : name = n
      · rw [if_pos hn, if_pos hn.symm]
        rfl
      · rw [if_neg hn, if_neg (Ne.symm hn), h.importer, importer?]
        cases hhead : (b.slotsOf n).head? with
        | none => rfl
        | some x =>
          have hx : x ≠ importer := by
            rintro rfl
            exact hn (hb.name_eq_of_mem (by rw [hids]; simp) (List.mem_of_mem_head? hhead))
          rw [Option.bind_some, Option.bind_some, hv.value, if_neg hx]
    · rw [h.anchor, anchor?, anchor?, hv.readers]
    · rw [hv.slotsOf]
      split
      · exact List.Pairwise.nil
      · exact h.sorted n
    · rw [hv.nextId, h.nextId]
  · rw [closeName_of_not_idle hb hidle, Outline.closeName, if_pos (hused.mpr ⟨hne, hidle⟩)]
    exact h

/-! ### Definitions -/

/-- A list stays sorted when a newcomer is put in behind all definitions that are not after it. -/
theorem sorted_insertion {definitions definitions' : Std.TreeMap SlotId Definition}
    {l₁ l₂ : List SlotId} {before : SlotId} (clock : Nat)
    (hins : Insertion c b' id name p l₁ before l₂)
    (hafter : ∀ y ∈ l₂, c.isUpTo (.placed p) y = false)
    (hsorted : c.SortedBy definitions)
    (hplace : ∀ {x : SlotId} {d : Definition}, definitions[x]? = some d → x ≠ id →
      c.place? x = some (.placed d.position) ∧ d.stamp < clock)
    (hother : ∀ x, x ≠ id → definitions'[x]? = definitions[x]?)
    (hself : ∀ d, definitions'[id]? = some d → d.position = p ∧ d.stamp = clock) :
    b'.SortedBy definitions' := by
  intro n
  have hkeep : ∀ l : List SlotId, id ∉ l →
      (l.Pairwise fun x y =>
        ∀ d e, definitions[x]? = some d → definitions[y]? = some e → d.before e) →
      l.Pairwise fun x y =>
        ∀ d e, definitions'[x]? = some d → definitions'[y]? = some e → d.before e := by
    intro l hl hp
    refine hp.imp_of_mem ?_
    intro x y hx hy hxy
    rw [hother x (fun heq => hl (heq ▸ hx)), hother y (fun heq => hl (heq ▸ hy))]
    exact hxy
  rw [hins.slotsOf]
  by_cases hn : n = name
  · rw [if_pos hn]
    have hold := hsorted name
    have hnot := hins.not_mem name
    rw [hins.without, List.append_cons] at hold hnot
    rw [List.append_cons, List.pairwise_append, List.pairwise_cons]
    rw [List.pairwise_append] at hold
    rw [List.mem_append, not_or] at hnot
    have hnew : ∀ x ∈ l₁ ++ [before], ∀ d e, definitions'[x]? = some d →
        definitions'[id]? = some e → d.before e := by
      intro x hx d e hd he
      have hxid : x ≠ id := fun heq => hnot.1 (heq ▸ hx)
      rw [hother x hxid] at hd
      obtain ⟨hposition, hstamp⟩ := hself e he
      obtain ⟨hxplace, hxstamp⟩ := hplace hd hxid
      obtain ⟨q, hq, hqp⟩ := isUpTo_eq_true_iff.mp (hins.upTo x hx)
      rw [hxplace, Option.some.injEq] at hq
      subst hq
      exact Definition.before_of_position_le (hposition ▸ hqp) (hstamp ▸ hxstamp)
    refine ⟨hkeep _ hnot.1 hold.1, ⟨?_, hkeep _ hnot.2 hold.2.1⟩, ?_⟩
    · intro y hy d e hd he
      have hyid : y ≠ id := fun heq => hnot.2 (heq ▸ hy)
      rw [hother y hyid] at he
      have hlate := hafter y hy
      rw [isUpTo, (hplace he hyid).1] at hlate
      have hnot : ¬SlotPlace.placed e.position ≤ .placed p := by simpa using hlate
      left
      rw [(hself d hd).1]
      exact Position.not_le.mp hnot
    · intro x hx y hy d e hd he
      rcases List.mem_cons.mp hy with rfl | hy
      · exact hnew x hx d e hd he
      · rw [hother x (fun heq => hnot.1 (heq ▸ hx))] at hd
        rw [hother y (fun heq => hnot.2 (heq ▸ hy))] at he
        exact hold.2.2 x hx y hy d e hd he
  · rw [if_neg hn]
    exact hkeep _ (hins.not_mem n) (hsorted n)

/-- A list stays sorted when a definition is taken out. -/
theorem sorted_without {definitions : Std.TreeMap SlotId Definition} {l₁ l₂ : List SlotId}
    {before : SlotId} (hins : Insertion c b id name p l₁ before l₂)
    (hsorted : b.SortedBy definitions) : c.SortedBy definitions := by
  intro n
  have hold := hsorted n
  rw [hins.slotsOf] at hold
  by_cases hn : n = name
  · rw [if_pos hn, List.append_cons] at hold
    rw [hn, hins.without, List.append_cons]
    exact hold.sublist ((List.Sublist.refl _).append (List.sublist_cons_self _ _))
  · rwa [if_neg hn] at hold

theorem importer?_insertion {l₁ l₂ : List SlotId} {before : SlotId}
    (hins : Insertion c b id name p l₁ before l₂) (n : String) : b.importer? n = c.importer? n := by
  rw [importer?, importer?, hins.slotsOf]
  by_cases hn : n = name
  · rw [if_pos hn, hn, hins.without]
    cases l₁ <;> rfl
  · rw [if_neg hn]

theorem mem_slotsOf_insertion {l₁ l₂ : List SlotId} {before : SlotId}
    (hins : Insertion c b id name p l₁ before l₂) (n : String) (x : SlotId) :
    x ∈ b.slotsOf n ↔ x ∈ c.slotsOf n ∨ x = id ∧ n = name := by
  rw [hins.slotsOf]
  by_cases hn : n = name
  · rw [if_pos hn, hn, hins.without]
    simp only [List.mem_append, List.mem_cons]
    tauto
  · rw [if_neg hn]
    tauto

theorem Refines.added (h : Refines c o) (ha : Added c b' id name p) :
    Refines b' { o with
      definitions := o.definitions.insert o.nextId ⟨name, p, .unset, o.clock⟩
      nextId := o.nextId + 1
      clock := o.clock + 1 } := by
  obtain ⟨l₁, before, l₂, hins, hafter⟩ := ha.insertion
  have hid : o.nextId = id := by rw [h.nextId, ha.fresh]
  rw [hid]
  have hlookup : ∀ x : SlotId, (o.definitions.insert id ⟨name, p, .unset, o.clock⟩)[x]? =
      if id = x then some ⟨name, p, .unset, o.clock⟩ else o.definitions[x]? :=
    fun x => lookup_insert _ _ _ _
  refine ⟨fun {x d} hd => ?_, fun {x q} hq => ?_, fun n => ?_, fun r => ?_, ?_, ?_⟩
  · rw [hlookup] at hd
    rw [mem_slotsOf_insertion hins, hins.place, ha.value]
    by_cases hx : id = x
    · rw [if_pos hx] at hd
      cases hd
      rw [if_pos hx.symm, if_pos hx.symm]
      exact ⟨.inr ⟨hx.symm, rfl⟩, rfl, rfl, Nat.lt_succ_self _⟩
    · rw [if_neg hx] at hd
      obtain ⟨hmem, hplace, hvalue, hstamp⟩ := h.definition hd
      rw [if_neg (Ne.symm hx), if_neg (Ne.symm hx)]
      exact ⟨.inl hmem, hplace, hvalue, Nat.lt_succ_of_lt hstamp⟩
  · rw [hins.place] at hq
    rw [hlookup]
    by_cases hx : id = x
    · exact ⟨_, if_pos hx⟩
    · rw [if_neg (Ne.symm hx)] at hq
      rw [if_neg hx]
      exact h.exists_definition hq
  · rw [h.importer, importer?_insertion hins]
    cases himporter : c.importer? n with
    | none => rfl
    | some x =>
      have hx : x ≠ id := by
        rintro rfl
        exact hins.not_mem n (List.mem_of_mem_head? himporter)
      rw [Option.bind_some, Option.bind_some, ha.value, if_neg hx]
  · rw [h.anchor, ha.anchor]
  · refine sorted_insertion o.clock hins hafter h.sorted (fun hd _ => ?_) (fun x hx => ?_) fun d hd => ?_
    · exact ⟨(h.definition hd).2.1, (h.definition hd).2.2.2⟩
    · rw [hlookup, if_neg (Ne.symm hx)]
    · rw [hlookup, if_pos rfl] at hd
      cases hd
      exact ⟨rfl, rfl⟩
  · show id + 1 = b'.nextId
    rw [ha.nextId, ha.fresh]

theorem Refines.moved (h : Refines b o) {d : Definition} (hd : o.definitions[id]? = some d)
    (hm : Moved b b' id d.name p) :
    Refines b' { o with
      definitions := o.definitions.insert id { d with position := p, stamp := o.clock }
      clock := o.clock + 1 } := by
  obtain ⟨c, old, l₁, before, l₂, m₁, before', m₂, hout, hin, hafter⟩ := hm.insertions
  have hlookup : ∀ x : SlotId,
      (o.definitions.insert id { d with position := p, stamp := o.clock })[x]? =
        if id = x then some { d with position := p, stamp := o.clock } else o.definitions[x]? :=
    fun x => lookup_insert _ _ _ _
  have hplace : ∀ x, x ≠ id → b'.place? x = b.place? x := by
    intro x hx
    rw [hin.place, hout.place, if_neg hx, if_neg hx]
  have hmem : ∀ n x, x ∈ b'.slotsOf n ↔ x ∈ b.slotsOf n := by
    intro n x
    rw [mem_slotsOf_insertion hin, mem_slotsOf_insertion hout]
  refine ⟨fun {x e} he => ?_, fun {x q} hq => ?_, fun n => ?_, fun r => ?_, ?_, ?_⟩
  · rw [hlookup] at he
    rw [hmem, hm.value]
    by_cases hx : id = x
    · subst hx
      rw [if_pos rfl] at he
      cases he
      obtain ⟨hmem, -, hvalue, -⟩ := h.definition hd
      exact ⟨hmem, by rw [hin.place, if_pos rfl], hvalue, Nat.lt_succ_self _⟩
    · rw [if_neg hx] at he
      obtain ⟨hmem, hxplace, hvalue, hstamp⟩ := h.definition he
      exact ⟨hmem, by rw [hplace x (Ne.symm hx), hxplace], hvalue, Nat.lt_succ_of_lt hstamp⟩
  · rw [hlookup]
    by_cases hx : id = x
    · exact ⟨_, if_pos hx⟩
    · rw [hplace x (Ne.symm hx)] at hq
      rw [if_neg hx]
      exact h.exists_definition hq
  · rw [h.importer, importer?_insertion hin, ← importer?_insertion hout, funext hm.value]
  · rw [h.anchor, hm.anchor]
  · refine sorted_insertion o.clock hin hafter (sorted_without hout h.sorted)
      (fun he hx => ?_) (fun x hx => ?_) fun e he => ?_
    · obtain ⟨-, hxplace, -, hstamp⟩ := h.definition he
      rw [hout.place, if_neg hx] at hxplace
      exact ⟨hxplace, hstamp⟩
    · rw [hlookup, if_neg (Ne.symm hx)]
    · rw [hlookup, if_pos rfl] at he
      cases he
      exact ⟨rfl, rfl⟩
  · rw [hm.nextId]
    exact h.nextId

theorem Refines.removed (h : Refines b o) (hb : b.Sound) (hc : Removed b c id name) :
    Refines c { o with definitions := o.definitions.erase id } := by
  obtain ⟨l₁, before, l₂, hids, hslots⟩ := hc.slotsOf
  have hsub : ∀ n, (c.slotsOf n).Sublist (b.slotsOf n) := by
    intro n
    rw [hslots]
    split
    · rename_i hn
      rw [hn, hids, List.append_cons, List.append_cons l₁ before (id :: l₂)]
      exact (List.Sublist.refl _).append (List.sublist_cons_self _ _)
    · exact List.Sublist.refl _
  have hmem : ∀ {n : String} {x : SlotId}, x ∈ b.slotsOf n → x ≠ id → x ∈ c.slotsOf n := by
    intro n x hx hxid
    rw [hslots]
    split
    · rename_i hn
      rw [hn, hids] at hx
      simp only [List.mem_append, List.mem_cons] at hx ⊢
      tauto
    · exact hx
  have hhead : ∀ n, c.importer? n = b.importer? n := by
    intro n
    rw [importer?, importer?, hslots]
    split
    · rename_i hn
      rw [hn, hids]
      cases l₁ <;> rfl
    · rfl
  refine ⟨fun {x d} hd => ?_, fun {x q} hq => ?_, fun n => ?_, fun r => ?_, fun n => ?_, ?_⟩
  · obtain ⟨hne, hd⟩ := (lookup_erase_eq_some_iff _).mp hd
    obtain ⟨hxmem, hplace, hvalue, hstamp⟩ := h.definition hd
    rw [hc.place, if_neg (Ne.symm hne), hc.value, if_neg (Ne.symm hne)]
    exact ⟨hmem hxmem (Ne.symm hne), hplace, hvalue, hstamp⟩
  · rw [hc.place] at hq
    split at hq
    · cases hq
    · rename_i hx
      rw [lookup_erase_of_ne _ (Ne.symm hx)]
      exact h.exists_definition hq
  · rw [h.importer, hhead]
    cases hx : b.importer? n with
    | none => rfl
    | some x =>
      have hxid : x ≠ id := by
        rintro rfl
        have hplace := hb.importer?_ne hx
        have hnone := hc.importer?_ne ((hhead n).trans hx)
        rw [hc.place, if_pos rfl] at hnone
        cases hnone
      rw [Option.bind_some, Option.bind_some, hc.value, if_neg hxid]
  · rw [h.anchor, hc.anchor]
  · refine ((h.sorted n).sublist (hsub n)).imp fun hxy d e hd he => ?_
    exact hxy d e ((lookup_erase_eq_some_iff _).mp hd).2 ((lookup_erase_eq_some_iff _).mp he).2
  · rw [hc.nextId]
    exact h.nextId

/-! ### Values -/

/-- The value that a write leaves in a slot. -/
theorem value?_setValue (hb : b.Consistent) (id : SlotId) (v : SlotValue) (x : SlotId) :
    (b.setValue id v).2.value? x =
      if x = id then (b.value? x).map fun old => Outline.written old v else b.value? x := by
  cases hslot : b.slots[id]? with
  | none =>
    rw [setValue_of_none hslot]
    split
    · rename_i hx
      rw [hx, value?, hslot]
      rfl
    · rfl
  | some slot =>
    have hvalue : b.value? id = some slot.value := by rw [value?, hslot, Option.map_some]
    by_cases hv : slot.value.valueEq v = true
    · rw [setValue_of_valueEq hslot hv]
      split
      · rename_i hx
        rw [hx, hvalue, Option.map_some, Outline.written, if_pos hv]
      · rfl
    · rw [(setValue_spec hb hslot (by simpa using hv)).1.value]
      split
      · rename_i hx
        rw [hx, hvalue, Option.map_some, Outline.written, if_neg hv]
      · rfl

/-- A write changes nothing but values. -/
theorem setValue_frame (hb : b.Consistent) (id : SlotId) (v : SlotValue) :
    (∀ n, (b.setValue id v).2.slotsOf n = b.slotsOf n) ∧
      (∀ x, (b.setValue id v).2.place? x = b.place? x) ∧
      (b.setValue id v).2.readers = b.readers ∧ (b.setValue id v).2.nextId = b.nextId := by
  cases hslot : b.slots[id]? with
  | none =>
    rw [setValue_of_none hslot]
    exact ⟨fun _ => rfl, fun _ => rfl, rfl, rfl⟩
  | some slot =>
    by_cases hv : slot.value.valueEq v = true
    · rw [setValue_of_valueEq hslot hv]
      exact ⟨fun _ => rfl, fun _ => rfl, rfl, rfl⟩
    · have hw := (setValue_spec hb hslot (by simpa using hv)).1
      exact ⟨hw.slotsOf, hw.place, hw.readers, hw.nextId⟩

theorem Refines.setValue (h : Refines b o) (hb : b.Consistent) (id : SlotId) (v : SlotValue) :
    Refines (b.setValue id v).2 (o.setValue id v) := by
  obtain ⟨hslots, hplace, hreaders, hnext⟩ := setValue_frame hb id v
  have hvalue := value?_setValue hb id v
  have hlookup : ∀ x : SlotId,
      (o.definitions.modify id fun d => { d with value := Outline.written d.value v })[x]? =
        if id = x then (o.definitions[x]?).map fun d =>
          { d with value := Outline.written d.value v }
        else o.definitions[x]? := fun x => lookup_modify _ _ _ _
  -- a definition keeps all but its value
  have hold : ∀ {x : SlotId} {d : Definition}, (o.setValue id v).definitions[x]? = some d →
      ∃ e, o.definitions[x]? = some e ∧ e.name = d.name ∧ e.position = d.position ∧
        e.stamp = d.stamp ∧ d.value = if x = id then Outline.written e.value v else e.value := by
    intro x d hd
    rw [Outline.setValue, hlookup] at hd
    by_cases hx : id = x
    · rw [if_pos hx] at hd
      obtain ⟨e, he, rfl⟩ := Option.map_eq_some_iff.mp hd
      exact ⟨e, he, rfl, rfl, rfl, by rw [if_pos hx.symm]⟩
    · rw [if_neg hx] at hd
      exact ⟨d, hd, rfl, rfl, rfl, by rw [if_neg (Ne.symm hx)]⟩
  refine ⟨fun {x d} hd => ?_, fun {x q} hq => ?_, fun n => ?_, fun r => ?_, fun n => ?_, ?_⟩
  · obtain ⟨e, he, hname, hposition, hstamp, hnew⟩ := hold hd
    obtain ⟨hmem, hxplace, hxvalue, hlt⟩ := h.definition he
    rw [hslots, hplace, hvalue, hxvalue, hnew, ← hname, ← hposition, ← hstamp]
    refine ⟨hmem, hxplace, ?_, hlt⟩
    split <;> rfl
  · rw [hplace] at hq
    obtain ⟨d, hd⟩ := h.exists_definition hq
    rw [Outline.setValue, hlookup]
    by_cases hx : id = x
    · rw [if_pos hx, hd]
      exact ⟨_, rfl⟩
    · rw [if_neg hx]
      exact ⟨d, hd⟩
  · rw [Outline.setValue, Std.TreeMap.getElem?_map, h.importer]
    have hhead : (b.setValue id v).2.importer? n = b.importer? n := by
      rw [importer?, importer?, hslots]
    rw [hhead]
    cases b.importer? n with
    | none => rfl
    | some x =>
      rw [Option.bind_some, Option.bind_some, hvalue]
      by_cases hx : x = id
      · simp [hx, Option.map_map, Function.comp_def]
      · simp [hx, Option.map_map, Function.comp_def]
  · rw [show (o.setValue id v).readers = o.readers from rfl, h.anchor, anchor?, anchor?, hreaders]
  · rw [hslots]
    refine (h.sorted n).imp fun hxy d e hd he => ?_
    obtain ⟨d', hd', -, hdp, hds, -⟩ := hold hd
    obtain ⟨e', he', -, hep, hes, -⟩ := hold he
    have := hxy d' e' hd' he'
    rwa [Definition.before, hdp, hds, hep, hes] at this
  · rw [hnext]
    exact h.nextId

/-- Writing an importer by its name is writing it by its number. -/
theorem Refines.setImported (h : Refines b o) (hb : b.Consistent) (name : String)
    (v : SlotValue) : Refines (b.setImported name v).2 (o.setImported name v) := by
  unfold Bindings.setImported
  cases himporter : b.importer? name with
  | none =>
    have hnone : o.importers[name]? = none := by rw [h.importer, himporter]; rfl
    refine { h with importer := fun n => ?_ }
    rw [← h.importer, Outline.setImported, lookup_modify]
    split
    · rename_i hn
      rw [← hn, hnone]
      rfl
    · rfl
  | some importer =>
    have hset := h.setValue hb importer v
    have hplace := hb.importer?_ne himporter
    refine { hset with
      definition := fun {x d} hd => ?_, exists_definition := fun {x q} hq => ?_
      importer := fun n => ?_, sorted := fun n => ?_ }
    · refine hset.definition ?_
      have hx : importer ≠ x := by
        rintro rfl
        have := (h.definition hd).2.1
        rw [hplace] at this
        cases this
      rw [Outline.setValue, lookup_modify, if_neg hx]
      exact hd
    · rw [(setValue_frame hb importer v).2.1] at hq
      exact h.exists_definition hq
    · rw [← hset.importer, Outline.setImported, Outline.setValue, lookup_modify,
        Std.TreeMap.getElem?_map, h.importer]
      cases hn : b.importer? n with
      | none => split <;> rfl
      | some y =>
        -- an importer belongs to one name
        have hiff : name = n ↔ y = importer := by
          constructor
          · rintro rfl
            rw [himporter] at hn
            exact (Option.some.inj hn).symm
          · rintro rfl
            exact hb.name_eq_of_mem (List.mem_of_mem_head? himporter) (List.mem_of_mem_head? hn)
        rw [Option.bind_some]
        cases b.value? y with
        | none => split <;> rfl
        | some w =>
          by_cases hy : y = importer
          · simp [hiff, hy]
          · simp [hiff, hy]
    · rw [(setValue_frame hb importer v).1]
      exact h.sorted n

/-! ### Readers -/

theorem Refines.anchored (h : Refines b o) {r : ReaderId} (ha : Anchored b b' r name p)
    {n : Nat} (hn : n = b'.nextId) {readers : Std.TreeMap ReaderId (String × Position)}
    (hr : ∀ x, readers[x]? = if x = r then some (name, p) else o.readers[x]?) :
    Refines b' { o with readers, nextId := n } where
  definition {x d} hd := by
    rw [ha.slotsOf, ha.place, ha.value]
    exact h.definition hd
  exists_definition {x q} hq := by
    rw [ha.place] at hq
    exact h.exists_definition hq
  importer m := by
    rw [h.importer, importer?, importer?, ha.slotsOf, funext ha.value]
  anchor x := by rw [hr, ha.anchor, h.anchor]
  sorted m := by
    rw [ha.slotsOf]
    exact h.sorted m
  nextId := hn

theorem Refines.dropped (h : Refines b o) {r : ReaderId} (hd : Dropped b c r) :
    Refines c { o with readers := o.readers.erase r } where
  definition {x d} he := by
    rw [hd.slotsOf, hd.place, hd.value]
    exact h.definition he
  exists_definition {x q} hq := by
    rw [hd.place] at hq
    exact h.exists_definition hq
  importer m := by
    rw [h.importer, importer?, importer?, hd.slotsOf, funext hd.value]
  anchor x := by
    rw [hd.anchor, lookup_erase, h.anchor]
    by_cases hx : r = x
    · rw [if_pos hx, if_pos hx.symm]
    · rw [if_neg hx, if_neg (Ne.symm hx)]
  sorted m := by
    rw [hd.slotsOf]
    exact h.sorted m
  nextId := by rw [hd.nextId]; exact h.nextId

end Bindings

end MathCanvas
