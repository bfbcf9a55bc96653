import MathCanvas.Proofs.Binding.Refinement

/-!
# Operations seen from outside

Of an operation on the bindings of one scope the rest of the tree sees little: which names came
into use or went out of use, and that the importers of the other names keep their values. `Outside`
says so for one step, and `Outside.trans` puts steps together. `Observed` adds that the table stays
consistent and that all readers are told that have to be; `observed_addDefinition` and the theorems
that follow it say it of every operation.
-/

namespace MathCanvas

namespace Bindings

variable {b b' c : Bindings} {id : SlotId} {name : String} {p : Position}
  {opened closed : List String} {own : Option ReaderId} {source : Option String}

/-- What a name means outside, as its importer has it. -/
def imported? (b : Bindings) (name : String) : Option SlotValue :=
  (b.importer? name).bind b.value?

/-- What others see of a change. Only the reader `own` is added, moved or removed, and only the
importer of the name `source` takes a value from outside. -/
structure Outside (b b' : Bindings) (opened closed : List String) (own : Option ReaderId)
    (source : Option String) : Prop where
  nextId_le : b.nextId ≤ b'.nextId
  used : ∀ n : String, b'.slotsOf n ≠ [] ↔ (n ∈ opened ∨ b.slotsOf n ≠ []) ∧ n ∉ closed
  unused : ∀ n ∈ opened, b.slotsOf n = []
  imported : ∀ n : String, source ≠ some n → b'.slotsOf n ≠ [] →
    b'.imported? n = if n ∈ opened then some .free else b.imported? n
  importer : ∀ x : SlotId, b'.place? x = some .importer →
    b.place? x = some .importer ∨ b.nextId ≤ x
  anchor : ∀ r : ReaderId, own ≠ some r → b'.anchor? r = b.anchor? r
  reader : ∀ r : ReaderId, r < b.nextId → b.anchor? r = none → b'.anchor? r = none

/-- An operation on consistent bindings, as others see it. -/
structure Observed (b b' : Bindings) (changes : Changes) (own : Option ReaderId)
    (source : Option String) : Prop
    extends Outside b b' changes.opened changes.closed own source,
      Reports b b' changes.readers where
  consistent : b'.Consistent
  closed_used : ∀ n ∈ changes.closed, b.slotsOf n ≠ []
  closed_le : changes.closed.length ≤ 1
  opened_le : changes.opened.length ≤ 1
  one_sided : changes.opened = [] ∨ changes.closed = []

namespace Outside

/-- A change that only brings names into use, and then one that only puts names out of use. -/
theorem trans (h : Outside b c opened [] own source) (h' : Outside c b' [] closed own source) :
    Outside b b' opened closed own source where
  nextId_le := Nat.le_trans h.nextId_le h'.nextId_le
  used n := by
    rw [h'.used, h.used]
    simp
  unused := h.unused
  imported n hn hused := by
    have hc := (h'.used n).mp hused
    rw [h'.imported n hn hused, if_neg (by simp)]
    exact h.imported n hn (by simpa using hc.1)
  importer x hx := by
    rcases h'.importer x hx with hx | hx
    · exact h.importer x hx
    · exact .inr (Nat.le_trans h.nextId_le hx)
  anchor r hr := (h'.anchor r hr).trans (h.anchor r hr)
  reader r hlt hr := h'.reader r (Nat.lt_of_lt_of_le hlt h.nextId_le) (h.reader r hlt hr)

/-- A change that leaves the names in use as they are. -/
theorem of_same (hn : b.nextId ≤ b'.nextId)
    (hused : ∀ n, b'.slotsOf n ≠ [] ↔ b.slotsOf n ≠ [])
    (himporter : ∀ n, b'.importer? n = b.importer? n)
    (hvalue : ∀ n x, source ≠ some n → b.importer? n = some x → b'.value? x = b.value? x)
    (hplace : ∀ x, b'.place? x = some .importer → b.place? x = some .importer)
    (hanchor : ∀ r, own ≠ some r → b'.anchor? r = b.anchor? r)
    (hown : ∀ r, own = some r → r < b.nextId → b.anchor? r = none → b'.anchor? r = none) :
    Outside b b' [] [] own source where
  nextId_le := hn
  used n := by
    rw [hused]
    simp
  unused n hmem := by simp at hmem
  imported n hsource _ := by
    rw [if_neg (by simp), imported?, himporter, imported?]
    cases himp : b.importer? n with
    | none => rfl
    | some x => rw [Option.bind_some, Option.bind_some, hvalue n x hsource himp]
  importer x hx := .inl (hplace x hx)
  anchor := hanchor
  reader r hlt hr := by
    by_cases hne : own = some r
    · exact hown r hne hlt hr
    · rw [hanchor r hne, hr]

theorem refl (b : Bindings) : Outside b b [] [] own source :=
  of_same (Nat.le_refl _) (fun _ => Iff.rfl) (fun _ => rfl) (fun _ _ _ _ => rfl) (fun _ => id)
    (fun _ _ => rfl) fun _ _ _ => id

theorem of_opened (hb : b.Sound) (h : Opened b c name opened) :
    Outside b c opened [] own source := by
  have hanchor : ∀ r, c.anchor? r = b.anchor? r := fun r => by rw [anchor?, h.readers, anchor?]
  by_cases hnil : b.slotsOf name = []
  · have hopened : opened = [name] := by rw [h.opened, if_pos hnil]
    have hslots : ∀ n, c.slotsOf n = if n = name then [b.nextId] else b.slotsOf n := by
      intro n
      rw [h.slotsOf]
      simp [hnil]
    have hvalue : ∀ x, c.value? x = if x = b.nextId then some .free else b.value? x := by
      intro x
      rw [h.value]
      simp [hnil]
    subst hopened
    refine ⟨?_, ?_, ?_, ?_, ?_, fun r _ => hanchor r, fun r _ hr => by rw [hanchor, hr]⟩
    · rw [h.nextId, if_pos hnil]
      exact Nat.le_succ _
    · intro n
      rw [hslots]
      by_cases hn : n = name <;> simp [hn]
    · simpa using hnil
    · intro n _ _
      rw [imported?, importer?, hslots]
      by_cases hn : n = name
      · rw [if_pos hn, List.head?_cons, Option.bind_some, hvalue, if_pos rfl,
          if_pos (by simp [hn])]
      · -- the importer of another name is not the new one
        rw [if_neg hn, if_neg (by simp [hn]), imported?, importer?]
        cases himp : (b.slotsOf n).head? with
        | none => rfl
        | some x =>
          have hx : x ≠ b.nextId := by
            rintro rfl
            exact hb.nextId_not_mem n (List.mem_of_mem_head? himp)
          rw [Option.bind_some, Option.bind_some, hvalue, if_neg hx]
    · intro x hx
      rw [h.place] at hx
      by_cases hid : x = b.nextId
      · exact .inr (Nat.le_of_eq hid.symm)
      · rw [if_neg (fun hc => hid hc.1)] at hx
        exact .inl hx
  · have hopened : opened = [] := by rw [h.opened, if_neg hnil]
    subst hopened
    have hslots : ∀ n, c.slotsOf n = b.slotsOf n := by
      intro n
      rw [h.slotsOf, if_neg (fun hc => hnil hc.2)]
    have hplace : ∀ x, c.place? x = b.place? x := by
      intro x
      rw [h.place, if_neg (fun hc => hnil hc.2)]
    refine of_same ?_ (fun n => by rw [hslots]) (fun n => by rw [importer?, hslots, importer?])
      (fun n x _ _ => ?_) (fun x hx => hplace x ▸ hx) (fun r _ => hanchor r)
      fun r _ _ hr => by rw [hanchor, hr]
    · rw [h.nextId, if_neg hnil]
    · rw [h.value, if_neg (fun hc => hnil hc.2)]

/-- Putting a name out of use. -/
theorem of_closeName (hb : b.Sound) (name : String) :
    Outside b (b.closeName name).1 [] (b.closeName name).2 own source := by
  by_cases hidle : b.Idle name
  · obtain ⟨importer, hids, hread⟩ := hidle
    have hv := vacated_closeName hb hids hread
    have hclosed : (b.closeName name).2 = [name] := by rw [closeName_of_idle hb hids hread]
    rw [hclosed]
    set d := (b.closeName name).1
    have hanchor : ∀ r, d.anchor? r = b.anchor? r := fun r => by rw [anchor?, hv.readers, anchor?]
    refine ⟨by rw [hv.nextId], ?_, by simp, ?_, ?_, fun r _ => hanchor r,
      fun r _ hr => by rw [hanchor, hr]⟩
    · intro n
      rw [hv.slotsOf]
      by_cases hn : n = name <;> simp [hn]
    · intro n _ hused
      rw [hv.slotsOf] at hused
      have hn : n ≠ name := by
        intro hn
        simp [hn] at hused
      rw [if_neg (by simp), imported?, importer?, hv.slotsOf, if_neg hn, imported?, importer?]
      cases himp : (b.slotsOf n).head? with
      | none => rfl
      | some x =>
        -- the importers of two names differ
        have hx : x ≠ importer := by
          rintro rfl
          obtain ⟨s, hs, hsname⟩ := hb.stored_of_mem (List.mem_of_mem_head? himp)
          obtain ⟨s', hs', hsname'⟩ := hb.stored_of_mem
            (show x ∈ b.slotsOf name by simp [hids])
          rw [hs] at hs'
          cases hs'
          exact hn (hsname.symm.trans hsname')
        rw [Option.bind_some, Option.bind_some, hv.value, if_neg hx]
    · intro x hx
      rw [hv.place] at hx
      split at hx
      · cases hx
      · exact .inl hx
  · rw [closeName_of_not_idle hb hidle]
    exact refl b

/-- After a change that leaves the names in use as they are, only a name that was in use before it
can be put out of use. -/
theorem closes (h : Outside b c [] [] own source) (hc : c.Sound) (name : String) :
    (c.closeName name).2 = [] ∨ ∃ n, (c.closeName name).2 = [n] ∧ b.slotsOf n ≠ [] := by
  by_cases hidle : c.Idle name
  · obtain ⟨importer, hids, hread⟩ := hidle
    have hused : c.slotsOf name ≠ [] := by simp [hids]
    refine .inr ⟨name, by rw [closeName_of_idle hc hids hread], ?_⟩
    simpa using (h.used name).mp hused
  · exact .inl (by rw [closeName_of_not_idle hc hidle])

end Outside

/-! ### Readers that are there -/

/-- A reader that is there observes some value. -/
theorem Consistent.exists_readerValue? (hb : b.Consistent) {r : ReaderId} {a : String × Position}
    (hr : b.anchor? r = some a) : ∃ v, b.readerValue? r = some v := by
  obtain ⟨reader, hreader, -⟩ := Option.map_eq_some_iff.mp hr
  obtain ⟨slot, hslot, -⟩ := hb.held hreader
  refine ⟨slot.value, ?_⟩
  rw [readerValue?, binding?, hreader, Option.map_some, Option.bind_some, value?, hslot,
    Option.map_some]

theorem exists_anchor?_of_readerValue? {r : ReaderId} {v : SlotValue}
    (hr : b.readerValue? r = some v) : ∃ a, b.anchor? r = some a := by
  obtain ⟨x, hx, -⟩ := Option.bind_eq_some_iff.mp hr
  obtain ⟨reader, hreader, -⟩ := Option.map_eq_some_iff.mp hx
  exact ⟨reader.anchor, by rw [anchor?, hreader, Option.map_some]⟩

/-- A reader that was there before observed something, and is told if it observes something else
now. -/
theorem Observed.exists_before {changes : Changes} (h : Observed b b' changes own source)
    (hb : b.Consistent) {r : ReaderId} (hr : r < b.nextId) {now : SlotValue}
    (hnow : b'.readerValue? r = some now) :
    ∃ before, b.readerValue? r = some before ∧ (now.same before ∨ r ∈ changes.readers) := by
  obtain ⟨a, ha⟩ := exists_anchor?_of_readerValue? hnow
  cases hold : b.anchor? r with
  | none =>
    rw [h.reader r hr hold] at ha
    cases ha
  | some a' =>
    obtain ⟨before, hbefore⟩ := hb.exists_readerValue? hold
    refine ⟨before, hbefore, ?_⟩
    by_cases hmem : r ∈ changes.readers
    · exact .inr hmem
    · exact .inl (h.told hbefore hnow hmem)

/-! ### The steps of the operations -/

/-- An importer is among the slots of its name. -/
theorem mem_slotsOf_of_importer? {n : String} {x : SlotId} (h : b.importer? n = some x) :
    x ∈ b.slotsOf n := List.mem_of_mem_head? h

theorem Insertion.ne_nil_iff {l₁ l₂ : List SlotId} {before : SlotId}
    (h : Insertion c b id name p l₁ before l₂) (n : String) :
    b.slotsOf n ≠ [] ↔ c.slotsOf n ≠ [] := by
  rw [h.slotsOf]
  by_cases hn : n = name
  · rw [if_pos hn, hn, h.without]
    simp
  · rw [if_neg hn]

/-- Only the definition that is put in changes its place. -/
theorem Insertion.place_importer {l₁ l₂ : List SlotId} {before x : SlotId}
    (h : Insertion c b id name p l₁ before l₂) (hx : b.place? x = some .importer) :
    c.place? x = some .importer := by
  rw [h.place] at hx
  split at hx
  · cases hx
  · exact hx

theorem Added.outside (h : Added b b' id name p) : Outside b b' [] [] own source := by
  obtain ⟨l₁, before, l₂, hins, -⟩ := h.insertion
  refine .of_same (by rw [h.nextId]; exact Nat.le_succ _) hins.ne_nil_iff
    (importer?_insertion hins) (fun n x _ hx => ?_) (fun x => hins.place_importer)
    (fun r _ => h.anchor r) fun r _ _ hr => by rw [h.anchor, hr]
  rw [h.value, if_neg]
  rintro rfl
  exact hins.not_mem n (mem_slotsOf_of_importer? hx)

theorem Moved.outside (h : Moved b b' id name p) : Outside b b' [] [] own source := by
  obtain ⟨c, old, l₁, before, l₂, m₁, before', m₂, hout, hin, -⟩ := h.insertions
  refine .of_same (by rw [h.nextId]) (fun n => ?_) (fun n => ?_) (fun n x _ _ => h.value x)
    (fun x hx => ?_) (fun r _ => h.anchor r) fun r _ _ hr => by rw [h.anchor, hr]
  · rw [hin.ne_nil_iff, hout.ne_nil_iff]
  · rw [importer?_insertion hin, importer?_insertion hout]
  · have hne : x ≠ id := by
      rintro rfl
      rw [hin.place, if_pos rfl] at hx
      cases hx
    rw [hin.place, if_neg hne] at hx
    rw [hout.place, if_neg hne, hx]

theorem Removed.outside (hb : b.Sound) (h : Removed b c id name) :
    Outside b c [] [] own source := by
  obtain ⟨l₁, before, l₂, hids, hslots⟩ := h.slotsOf
  have himporter : ∀ n, c.importer? n = b.importer? n := by
    intro n
    rw [importer?, importer?, hslots]
    by_cases hn : n = name
    · rw [if_pos hn, hn, hids]
      cases l₁ <;> rfl
    · rw [if_neg hn]
  refine .of_same (by rw [h.nextId]) (fun n => ?_) himporter (fun n x _ hx => ?_) (fun x hx => ?_)
    (fun r _ => h.anchor r) fun r _ _ hr => by rw [h.anchor, hr]
  · rw [hslots]
    by_cases hn : n = name
    · rw [if_pos hn, hn, hids]
      simp
    · rw [if_neg hn]
  · -- a slot that is removed has another one before it in its list
    rw [h.value, if_neg]
    rintro rfl
    obtain ⟨slot, hslot, hname⟩ := hb.stored_of_mem (mem_slotsOf_of_importer? hx)
    obtain ⟨slot', hslot', hname'⟩ := hb.stored_of_mem
      (show x ∈ b.slotsOf name by rw [hids]; simp)
    rw [hslot] at hslot'
    cases hslot'
    have hn : n = name := hname.symm.trans hname'
    rw [importer?, hn, hids] at hx
    have hnodup := hb.nodup_slotsOf name
    rw [hids] at hnodup
    cases l₁ with
    | nil =>
      cases hx
      simp at hnodup
    | cons y rest =>
      cases hx
      simp at hnodup
  · rw [h.place] at hx
    split at hx
    · cases hx
    · exact hx

theorem Anchored.outside {r : ReaderId} (h : Anchored b b' r name p) (hn : b.nextId ≤ b'.nextId)
    (hr : r < b.nextId → b.anchor? r ≠ none) : Outside b b' [] [] (some r) source := by
  refine .of_same hn (fun n => by rw [h.slotsOf]) (fun n => ?_) (fun n x _ _ => h.value x)
    (fun x hx => h.place x ▸ hx) (fun s hs => ?_) fun s hs hlt hnone => ?_
  · rw [importer?, h.slotsOf, importer?]
  · rw [h.anchor, if_neg]
    rintro rfl
    exact hs rfl
  · cases hs
    exact absurd hnone (hr hlt)

theorem Dropped.outside {r : ReaderId} (h : Dropped b b' r) :
    Outside b b' [] [] (some r) source := by
  refine .of_same (by rw [h.nextId]) (fun n => by rw [h.slotsOf]) (fun n => ?_)
    (fun n x _ _ => h.value x) (fun x hx => h.place x ▸ hx) (fun s hs => ?_) fun s hs _ _ => ?_
  · rw [importer?, h.slotsOf, importer?]
  · rw [h.anchor, if_neg]
    rintro rfl
    exact hs rfl
  · cases hs
    rw [h.anchor, if_pos rfl]

/-- A write to a slot that is not an importer, or to the importer of the name `source`. -/
theorem outside_setValue (hb : b.Consistent) (v : SlotValue)
    (h : ∀ n, b.importer? n = some id → source = some n) :
    Outside b (b.setValue id v).2 [] [] own source := by
  obtain ⟨hslots, hplace, hreaders, hnext⟩ := setValue_frame hb id v
  refine .of_same (by rw [hnext]) (fun n => by rw [hslots]) (fun n => ?_) (fun n x hn hx => ?_)
    (fun x hx => hplace x ▸ hx) (fun r _ => ?_) fun r _ _ hr => ?_
  · rw [importer?, hslots, importer?]
  · rw [value?_setValue hb, if_neg]
    rintro rfl
    exact hn (h n hx)
  · rw [anchor?, hreaders, anchor?]
  · rw [anchor?, hreaders, ← anchor?, hr]

/-! ### The operations -/

theorem Told.refl (b : Bindings) (readers : List ReaderId) : Told b b readers :=
  Told.of_readerValue?_eq (fun hbefore hnow => by
    rw [hbefore, Option.some.injEq] at hnow
    exact hnow.symm) readers

theorem Outside.observed {changes : Changes} (h : Outside b b' opened closed own source)
    (hopened : changes.opened = opened) (hclosed : changes.closed = closed)
    (hside : opened = [] ∧ (closed = [] ∨ ∃ n, closed = [n] ∧ b.slotsOf n ≠ []) ∨
      opened.length ≤ 1 ∧ closed = [])
    (hb' : b'.Consistent) (hreports : Reports b b' changes.readers) :
    Observed b b' changes own source := by
  subst hopened hclosed
  rcases hside with ⟨hopened, hclosed⟩ | ⟨hle, hclosed⟩
  · rcases hclosed with hclosed | ⟨n, hclosed, hused⟩
    · exact { h, hreports with
        consistent := hb'
        closed_used := by simp [hclosed]
        closed_le := by simp [hclosed]
        opened_le := by simp [hopened]
        one_sided := .inl hopened }
    · exact { h, hreports with
        consistent := hb'
        closed_used := by simpa [hclosed] using hused
        closed_le := by simp [hclosed]
        opened_le := by simp [hopened]
        one_sided := .inl hopened }
  · exact { h, hreports with
      consistent := hb'
      closed_used := by simp [hclosed]
      closed_le := by simp [hclosed]
      opened_le := hle
      one_sided := .inr hclosed }

theorem Consistent.observed_refl (hb : b.Consistent) : Observed b b {} own source :=
  { Outside.refl b, Told.reports_nil (Told.refl b []) with
    consistent := hb
    closed_used := by simp
    closed_le := Nat.zero_le _
    opened_le := Nat.zero_le _
    one_sided := .inl rfl }

theorem Opened.length_le (h : Opened b b' name opened) : opened.length ≤ 1 := by
  rw [h.opened]
  split <;> simp

theorem observed_addDefinition (hb : b.Consistent) (name : String) (p : Position) :
    Observed b (b.addDefinition name p).2.2 (b.addDefinition name p).2.1 none none := by
  obtain ⟨c, opened, ho, hadded, hopened, hclosed, htold⟩ := addDefinition_spec hb name p
  exact ((Outside.of_opened hb.toSound ho).trans hadded.outside).observed hopened hclosed
    (.inr ⟨ho.length_le, rfl⟩) hadded.toConsistent htold

theorem observed_moveDefinition (hb : b.Consistent) (id : SlotId) (p : Position) :
    Observed b (b.moveDefinition id p).2 (b.moveDefinition id p).1 none none := by
  cases h : b.slots[id]? with
  | none =>
    rw [moveDefinition_of_none h]
    exact hb.observed_refl
  | some slot =>
    cases hp : slot.place with
    | importer =>
      rw [moveDefinition_of_importer h hp]
      exact hb.observed_refl
    | placed old =>
      by_cases hsame : old.same p = true
      · rw [moveDefinition_of_same h hp hsame]
        exact hb.observed_refl
      · obtain ⟨hm, hopened, hclosed, htold⟩ := moveDefinition_spec hb h hp (by simpa using hsame)
        exact hm.outside.observed hopened hclosed (.inl ⟨rfl, .inl rfl⟩) hm.toConsistent htold

theorem observed_removeDefinition (hb : b.Consistent) (id : SlotId) :
    Observed b (b.removeDefinition id).2 (b.removeDefinition id).1 none none := by
  cases h : b.slots[id]? with
  | none =>
    rw [removeDefinition_of_none h]
    exact hb.observed_refl
  | some slot =>
    by_cases hp : slot.place = .importer
    · rw [removeDefinition_of_importer h hp]
      exact hb.observed_refl
    · obtain ⟨c, hr, heq, hconsistent, hopened, hclosed, htold⟩ := removeDefinition_spec hb h hp
      have houter : Outside b c [] [] none none := hr.outside hb.toSound
      have houtside : Outside b (b.removeDefinition id).2 [] (c.closeName slot.name).2 none none :=
        heq ▸ houter.trans (Outside.of_closeName hr.toSound _)
      exact houtside.observed hopened hclosed (.inl ⟨rfl, houter.closes hr.toSound _⟩)
        hconsistent htold

theorem observed_setValue (hb : b.Consistent) (id : SlotId) (v : SlotValue)
    (h : ∀ n, b.importer? n = some id → source = some n) :
    Observed b (b.setValue id v).2 (b.setValue id v).1 own source := by
  have houtside : Outside b (b.setValue id v).2 [] [] own source := outside_setValue hb v h
  cases hslot : b.slots[id]? with
  | none =>
    rw [setValue_of_none hslot]
    exact hb.observed_refl
  | some slot =>
    by_cases hv : slot.value.valueEq v = true
    · rw [setValue_of_valueEq hslot hv]
      exact hb.observed_refl
    · obtain ⟨hw, hopened, hclosed, htold⟩ := setValue_spec hb hslot (by simpa using hv)
      exact houtside.observed hopened hclosed (.inl ⟨rfl, .inl rfl⟩) hw.toConsistent htold

/-- In a table, an importer belongs to one name. -/
theorem Sound.importer?_inj (hb : b.Sound) {m n : String} {x : SlotId}
    (hm : b.importer? m = some x) (hn : b.importer? n = some x) : m = n := by
  obtain ⟨s, hs, rfl⟩ := hb.stored_of_mem (mem_slotsOf_of_importer? hm)
  obtain ⟨s', hs', rfl⟩ := hb.stored_of_mem (mem_slotsOf_of_importer? hn)
  rw [hs] at hs'
  cases hs'
  rfl

theorem observed_setImported (hb : b.Consistent) (name : String) (v : SlotValue) :
    Observed b (b.setImported name v).2 (b.setImported name v).1 none (some name) := by
  unfold setImported
  cases himp : b.importer? name with
  | none => exact hb.observed_refl
  | some x =>
    exact observed_setValue hb x v fun n hn => by rw [hb.importer?_inj himp hn]

/-- The importer then has the value, if the name is in use. -/
theorem imported?_setImported (hb : b.Consistent) (name : String) (v : SlotValue) {w : SlotValue}
    (h : (b.setImported name v).2.imported? name = some w) : w.same v := by
  unfold setImported at h
  cases himp : b.importer? name with
  | none =>
    rw [himp] at h
    simp [imported?, himp] at h
  | some x =>
    rw [himp] at h
    simp only at h
    have himp' : (b.setValue x v).2.importer? name = some x := by
      rw [importer?, (setValue_frame hb x v).1, ← importer?, himp]
    rw [imported?, himp', Option.bind_some, value?_setValue hb, if_pos rfl] at h
    obtain ⟨old, -, rfl⟩ := Option.map_eq_some_iff.mp h
    unfold Outline.written
    split
    · rename_i heq
      exact SlotValue.same_of_valueEq heq
    · exact SlotValue.same_refl v

theorem observed_addReader (hb : b.Consistent) (name : String) (p : Position) :
    Observed b (b.addReader name p).2.2 (b.addReader name p).2.1
      (some (b.addReader name p).1) none := by
  obtain ⟨c, opened, ho, hid, ha, hnext, hchanges, htold⟩ := addReader_spec hb name p
  have houtside : Outside b (b.addReader name p).2.2 opened [] (some (b.addReader name p).1) none :=
    (Outside.of_opened hb.toSound ho).trans (ha.outside (by rw [hnext]; exact Nat.le_succ _)
      fun hlt => absurd hlt (by rw [hid]; exact Nat.lt_irrefl _))
  exact houtside.observed (by rw [hchanges]) (by rw [hchanges]) (.inr ⟨ho.length_le, rfl⟩)
    ha.toConsistent (by rw [hchanges]; exact htold.reports_nil)

theorem observed_moveReader (hb : b.Consistent) (r : ReaderId) (p : Position) :
    Observed b (b.moveReader r p).2 (b.moveReader r p).1 (some r) none := by
  cases h : b.readers[r]? with
  | none =>
    rw [moveReader_of_none h]
    exact hb.observed_refl
  | some reader =>
    obtain ⟨ha, hnext, hopened, hclosed, htold⟩ := moveReader_spec hb h p
    have hold : b.anchor? r ≠ none := by
      rw [anchor?, h]
      simp
    exact (ha.outside (by rw [hnext]) fun _ => hold).observed hopened hclosed
      (.inl ⟨rfl, .inl rfl⟩) ha.toConsistent htold

theorem observed_removeReader (hb : b.Consistent) (r : ReaderId) :
    Observed b (b.removeReader r).2 (b.removeReader r).1 (some r) none := by
  cases h : b.readers[r]? with
  | none =>
    rw [removeReader_of_none h]
    exact hb.observed_refl
  | some reader =>
    obtain ⟨c, -, hd, heq, hconsistent, hchanges, htold⟩ := removeReader_spec hb h
    have houter : Outside b c [] [] (some r) none := hd.outside
    have houtside : Outside b (b.removeReader r).2 [] (c.closeName reader.name).2 (some r) none :=
      heq ▸ houter.trans (Outside.of_closeName hd.toSound _)
    exact houtside.observed (by rw [hchanges]) (by rw [hchanges])
      (.inl ⟨rfl, houter.closes hd.toSound _⟩) hconsistent (by rw [hchanges]; exact htold.reports_nil)

end Bindings

end MathCanvas
