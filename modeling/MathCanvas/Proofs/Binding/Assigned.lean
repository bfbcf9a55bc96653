import MathCanvas.Proofs.Binding.Outside

/-!
# Definitions that have a value

A definition is *assigned* if it has a value. Only writing the definition can do this: whatever else
is done to the bindings of a scope, the definitions that are left have the values that they had
(`Subsides`). `subsides_addDefinition` and the theorems that follow it say so of every operation,
and `assigned_of_setValue` says what a write does. Importers are left out of this. They have their
values from outside.
-/

namespace MathCanvas

namespace Bindings

variable {b b' c : Bindings} {id x : SlotId} {name : String} {p : Position} {opened : List String}

/-- A definition has a value. -/
structure Assigned (b : Bindings) (id : SlotId) : Prop where
  value : ∃ v, b.value? id = some v ∧ v ≠ .unset
  placed : b.place? id ≠ some .importer

/-- The definitions that are left have the values that they had, and new ones have none. -/
structure Subsides (b b' : Bindings) : Prop where
  nextId_le : b.nextId ≤ b'.nextId
  definition : ∀ {x : SlotId} {v : SlotValue}, b'.value? x = some v → b'.place? x ≠ some .importer →
    (b.value? x = some v ∧ b.place? x ≠ some .importer) ∨ v = .unset ∧ b.nextId ≤ x

namespace Subsides

theorem refl (b : Bindings) : b.Subsides b := ⟨Nat.le_refl _, fun hv hx => .inl ⟨hv, hx⟩⟩

theorem trans (h : b.Subsides c) (h' : c.Subsides b') : b.Subsides b' where
  nextId_le := h.nextId_le.trans h'.nextId_le
  definition hv hx := by
    rcases h'.definition hv hx with ⟨hv, hx⟩ | ⟨hunset, hnew⟩
    · exact h.definition hv hx
    · exact .inr ⟨hunset, h.nextId_le.trans hnew⟩

/-- No definition takes a value. -/
theorem assigned (h : b.Subsides b') (hx : b'.Assigned x) : b.Assigned x := by
  obtain ⟨⟨v, hv, hset⟩, hplaced⟩ := hx
  obtain ⟨hbefore, hplaced⟩ := (h.definition hv hplaced).resolve_right fun hnew => hset hnew.1
  exact ⟨⟨v, hbefore, hset⟩, hplaced⟩

theorem of_same (hnext : b.nextId ≤ b'.nextId) (hvalue : ∀ x, b'.value? x = b.value? x)
    (hplace : ∀ x, b'.place? x = b.place? x) : b.Subsides b' where
  nextId_le := hnext
  definition hv hx := .inl ⟨hvalue _ ▸ hv, hplace _ ▸ hx⟩

/-- Slots are taken away. -/
theorem of_removed (gone : SlotId) (hnext : b'.nextId = b.nextId)
    (hvalue : ∀ x, b'.value? x = if x = gone then none else b.value? x)
    (hplace : ∀ x, b'.place? x = if x = gone then none else b.place? x) : b.Subsides b' where
  nextId_le := hnext.ge
  definition hv hx := by
    rw [hvalue] at hv
    rw [hplace] at hx
    split at hv
    · cases hv
    · rename_i hne
      rw [if_neg hne] at hx
      exact .inl ⟨hv, hx⟩

end Subsides

/-! ### Parts of operations -/

/-- A new importer is no definition. -/
theorem Opened.subsides (h : Opened b c name opened) : b.Subsides c where
  nextId_le := by
    rw [h.nextId]
    split <;> omega
  definition hv hx := by
    rw [h.place] at hx
    rw [h.value] at hv
    split at hx
    · exact absurd rfl hx
    · rename_i hold
      rw [if_neg hold] at hv
      exact .inl ⟨hv, hx⟩

/-- A new definition has no value. -/
theorem Added.subsides (h : Added b b' id name p) : b.Subsides b' where
  nextId_le := h.nextId ▸ Nat.le_succ _
  definition {x v} hv hx := by
    obtain ⟨l₁, before, l₂, hins, -⟩ := h.insertion
    rw [h.value] at hv
    rw [hins.place] at hx
    split at hv
    · rename_i hself
      cases hv
      exact .inr ⟨rfl, (hself.trans h.fresh).ge⟩
    · rename_i hne
      rw [if_neg hne] at hx
      exact .inl ⟨hv, hx⟩

theorem Moved.subsides (h : Moved b b' id name p) : b.Subsides b' where
  nextId_le := h.nextId.ge
  definition hv hx := by
    obtain ⟨c, old, l₁, before, l₂, m₁, before', m₂, hout, hin, -⟩ := h.insertions
    rw [h.value] at hv
    refine .inl ⟨hv, ?_⟩
    rw [hout.place]
    rw [hin.place] at hx
    split
    · simp
    · rename_i hne
      rwa [if_neg hne] at hx

theorem subsides_closeName (hb : b.Sound) (name : String) : b.Subsides (b.closeName name).1 := by
  by_cases hidle : b.Idle name
  · obtain ⟨importer, hids, hread⟩ := hidle
    have hvacated := vacated_closeName hb hids hread
    exact .of_removed importer hvacated.nextId hvacated.value hvacated.place
  · rw [closeName_of_not_idle hb hidle]
    exact .refl b

/-! ### The operations -/

theorem subsides_addDefinition (hb : b.Consistent) (name : String) (p : Position) :
    b.Subsides (b.addDefinition name p).2.2 := by
  obtain ⟨c, opened, ho, hadded, -⟩ := addDefinition_spec hb name p
  exact ho.subsides.trans hadded.subsides

/-- A definition that is added has no value. -/
theorem not_assigned_addDefinition (hb : b.Consistent) (name : String) (p : Position) :
    ¬(b.addDefinition name p).2.2.Assigned (b.addDefinition name p).1 := by
  obtain ⟨c, opened, -, hadded, -⟩ := addDefinition_spec hb name p
  rintro ⟨⟨v, hv, hset⟩, -⟩
  rw [hadded.value, if_pos rfl, Option.some.injEq] at hv
  exact hset hv.symm

theorem subsides_moveDefinition (hb : b.Consistent) (id : SlotId) (p : Position) :
    b.Subsides (b.moveDefinition id p).2 := by
  cases h : b.slots[id]? with
  | none =>
    rw [moveDefinition_of_none h]
    exact .refl b
  | some slot =>
    cases hp : slot.place with
    | importer =>
      rw [moveDefinition_of_importer h hp]
      exact .refl b
    | placed old =>
      by_cases hsame : old.same p = true
      · rw [moveDefinition_of_same h hp hsame]
        exact .refl b
      · exact (moveDefinition_spec hb h hp (by simpa using hsame)).1.subsides

theorem subsides_removeDefinition (hb : b.Consistent) (id : SlotId) :
    b.Subsides (b.removeDefinition id).2 := by
  cases h : b.slots[id]? with
  | none =>
    rw [removeDefinition_of_none h]
    exact .refl b
  | some slot =>
    by_cases hp : slot.place = .importer
    · rw [removeDefinition_of_importer h hp]
      exact .refl b
    · obtain ⟨c, hremoved, heq, -⟩ := removeDefinition_spec hb h hp
      rw [heq]
      exact (Subsides.of_removed id hremoved.nextId hremoved.value hremoved.place).trans
        (subsides_closeName hremoved.toSound _)

theorem subsides_addReader (hb : b.Consistent) (name : String) (p : Position) :
    b.Subsides (b.addReader name p).2.2 := by
  obtain ⟨c, opened, ho, -, hanchored, hnext, -⟩ := addReader_spec hb name p
  exact ho.subsides.trans (.of_same (hnext ▸ Nat.le_succ _) hanchored.value hanchored.place)

theorem subsides_moveReader (hb : b.Consistent) (r : ReaderId) (p : Position) :
    b.Subsides (b.moveReader r p).2 := by
  cases h : b.readers[r]? with
  | none =>
    rw [moveReader_of_none h]
    exact .refl b
  | some reader =>
    have hanchored := (moveReader_spec hb h p).1
    exact .of_same (observed_moveReader hb r p).nextId_le hanchored.value hanchored.place

theorem subsides_removeReader (hb : b.Consistent) (r : ReaderId) :
    b.Subsides (b.removeReader r).2 := by
  cases h : b.readers[r]? with
  | none =>
    rw [removeReader_of_none h]
    exact .refl b
  | some reader =>
    obtain ⟨c, -, hdropped, heq, -⟩ := removeReader_spec hb h
    rw [heq]
    exact (Subsides.of_same hdropped.nextId.ge hdropped.value hdropped.place).trans
      (subsides_closeName hdropped.toSound _)

/-- Only the definition that is written can take a value by it. -/
theorem assigned_of_setValue (hb : b.Consistent) {v : SlotValue}
    (h : (b.setValue id v).2.Assigned x) : b.Assigned x ∨ x = id ∧ v ≠ .unset := by
  obtain ⟨-, hplace, -, -⟩ := setValue_frame hb id v
  obtain ⟨⟨new, hnew, hset⟩, hx⟩ := h
  rw [hplace] at hx
  rw [value?_setValue hb] at hnew
  split at hnew
  · rename_i hid
    obtain ⟨old, hold, rfl⟩ := Option.map_eq_some_iff.mp hnew
    unfold Outline.written at hset
    split at hset
    · exact .inl ⟨⟨old, hold, hset⟩, hx⟩
    · exact .inr ⟨hid, hset⟩
  · exact .inl ⟨⟨new, hnew, hset⟩, hx⟩

/-- A definition that is cleared has no value. -/
theorem not_assigned_clear (hb : b.Consistent) : ¬(b.setValue id .unset).2.Assigned id := by
  rintro ⟨⟨new, hnew, hset⟩, -⟩
  rw [value?_setValue hb, if_pos rfl] at hnew
  obtain ⟨old, -, rfl⟩ := Option.map_eq_some_iff.mp hnew
  unfold Outline.written at hset
  split at hset
  · rename_i hsame
    cases old with
    | unset => exact hset rfl
    | free | defined e => cases hsame
  · exact hset rfl

/-- An importer takes a value. -/
theorem subsides_setImported (hb : b.Consistent) (name : String) (v : SlotValue) :
    b.Subsides (b.setImported name v).2 := by
  unfold setImported
  cases himporter : b.importer? name with
  | none => exact .refl b
  | some importer =>
    obtain ⟨-, hplace, -, hnext⟩ := setValue_frame hb importer v
    refine ⟨hnext.ge, fun {x new} hnew hx => .inl ?_⟩
    rw [hplace] at hx
    have hother : x ≠ importer := by
      rintro rfl
      exact hx (hb.importer?_ne himporter)
    rw [value?_setValue hb, if_neg hother] at hnew
    exact ⟨hnew, hx⟩

end Bindings

end MathCanvas
