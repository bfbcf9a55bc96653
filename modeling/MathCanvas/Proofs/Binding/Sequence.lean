import MathCanvas.Proofs.Binding.Outside

/-!
# The sequence of the definitions of a name

Behind the importer of a name stand its definitions (`Bindings.sequence`). A definition that is added,
or that moves to another place, goes behind all that are not after it (`Joins`), those of its own
place included; one that moves within its place stays where it is in the list. Nothing else changes
the sequence, apart from removals.
-/

namespace MathCanvas

/-- A definition is put into a list, behind all that are not after it. -/
def Joins (x : SlotId × Position) (l l' : List (SlotId × Position)) : Prop :=
  ∃ before after, l = before ++ after ∧ l' = before ++ x :: after ∧
    (∀ y ∈ before, y.2 ≤ x.2) ∧ ∀ y ∈ after, x.2 < y.2

theorem Joins.mem_iff {x y : SlotId × Position} {l l' : List (SlotId × Position)}
    (h : Joins x l l') : y ∈ l' ↔ y = x ∨ y ∈ l := by
  obtain ⟨before, after, rfl, rfl, -, -⟩ := h
  simp only [List.mem_append, List.mem_cons]
  tauto

namespace Bindings

variable {b b' c : Bindings} {id x : SlotId} {name n : String} {p q : Position} {slot : Slot}
  {opened : List String}

/-- A definition with its position. -/
def placed? (b : Bindings) (id : SlotId) : Option (SlotId × Position) :=
  ((b.place? id).bind SlotPlace.position?).map fun p => (id, p)

/-- The definitions of a name in order, each with its position. -/
def sequence (b : Bindings) (name : String) : List (SlotId × Position) :=
  (b.slotsOf name).filterMap b.placed?

theorem placed?_eq_some_iff :
    b.placed? id = some (x, p) ↔ id = x ∧ b.place? x = some (.placed p) := by
  unfold placed?
  constructor
  · intro h
    obtain ⟨q, hq, heq⟩ := Option.map_eq_some_iff.mp h
    cases heq
    obtain ⟨place, hplace, hposition⟩ := Option.bind_eq_some_iff.mp hq
    cases place with
    | importer => cases hposition
    | placed r =>
      cases hposition
      exact ⟨rfl, hplace⟩
  · rintro ⟨rfl, hplace⟩
    rw [hplace]
    rfl

theorem placed?_of_importer (h : b.place? id = some .importer) : b.placed? id = none := by
  rw [placed?, h]
  rfl

theorem placed?_congr (h : b'.place? id = b.place? id) : b'.placed? id = b.placed? id := by
  rw [placed?, placed?, h]

theorem mem_sequence_iff :
    (x, p) ∈ b.sequence name ↔ x ∈ b.slotsOf name ∧ b.place? x = some (.placed p) := by
  simp only [sequence, List.mem_filterMap, placed?_eq_some_iff]
  constructor
  · rintro ⟨id, hid, rfl, hplace⟩
    exact ⟨hid, hplace⟩
  · exact fun ⟨hx, hplace⟩ => ⟨x, hx, rfl, hplace⟩

/-! ### Consistent bindings -/

section Consistent

variable (hb : b.Consistent)
include hb

/-- A definition has one name and one position. -/
theorem eq_of_mem_sequence (h : (x, p) ∈ b.sequence name) (h' : (x, q) ∈ b.sequence n) :
    name = n ∧ p = q := by
  obtain ⟨hmem, hplace⟩ := mem_sequence_iff.mp h
  obtain ⟨hmem', hplace'⟩ := mem_sequence_iff.mp h'
  refine ⟨hb.toListed.name_eq_of_mem hmem hmem', ?_⟩
  rw [hplace] at hplace'
  cases hplace'
  rfl

end Consistent

/-! ### Parts of operations -/

theorem sequence_congr (hslots : ∀ n : String, b'.slotsOf n = b.slotsOf n)
    (hplace : ∀ x, b'.place? x = b.place? x) (n : String) : b'.sequence n = b.sequence n := by
  rw [sequence, sequence, hslots]
  exact List.filterMap_congr fun x _ => placed?_congr (hplace x)

/-- A new importer is no definition. -/
theorem Opened.sequence_eq (hb : b.Sound) (h : Opened b c name opened) (n : String) :
    c.sequence n = b.sequence n := by
  rw [sequence, sequence, h.slotsOf]
  by_cases hnew : n = name ∧ b.slotsOf name = []
  · rw [if_pos hnew, hnew.1, hnew.2, List.filterMap_nil, List.filterMap_cons_none, List.filterMap_nil]
    exact placed?_of_importer (by rw [h.place, if_pos ⟨rfl, hnew.2⟩])
  · rw [if_neg hnew]
    refine List.filterMap_congr fun x hx => placed?_congr ?_
    rw [h.place, if_neg]
    rintro ⟨rfl, -⟩
    exact hb.nextId_not_mem n hx

theorem Vacated.sequence_eq {importer : SlotId} (hb : b.Sound) (hids : b.slotsOf name = [importer])
    (h : Vacated b c name importer) (n : String) : c.sequence n = b.sequence n := by
  have himporter : b.place? importer = some .importer := by
    obtain ⟨head, rest, hcons, hhead, -⟩ := hb.exists_cons (by simp [hids] : b.slotsOf name ≠ [])
    rw [hids] at hcons
    cases hcons
    exact hhead
  rw [sequence, sequence, h.slotsOf]
  by_cases hn : n = name
  · rw [if_pos hn, hn, hids, List.filterMap_nil, List.filterMap_cons_none (placed?_of_importer himporter),
      List.filterMap_nil]
  · rw [if_neg hn]
    refine List.filterMap_congr fun x hx => placed?_congr ?_
    rw [h.place, if_neg]
    rintro rfl
    exact hn (hb.toListed.name_eq_of_mem hx (by simp [hids]))

theorem sequence_closeName (hb : b.Sound) (name n : String) :
    (b.closeName name).1.sequence n = b.sequence n := by
  by_cases hidle : b.Idle name
  · obtain ⟨importer, hids, hread⟩ := hidle
    exact (vacated_closeName hb hids hread).sequence_eq hb hids n
  · rw [closeName_of_not_idle hb hidle]

section Insertion

variable {l₁ l₂ : List SlotId} {before : SlotId}

/-- Where a definition is put in, the sequence is cut. -/
theorem Insertion.sequence_eq (h : Insertion b b' id name p l₁ before l₂) :
    b.sequence name = (l₁ ++ [before]).filterMap b.placed? ++ l₂.filterMap b.placed? ∧
      b'.sequence name =
        (l₁ ++ [before]).filterMap b.placed? ++ (id, p) :: l₂.filterMap b.placed? := by
  have hcut : l₁ ++ before :: id :: l₂ = (l₁ ++ [before]) ++ id :: l₂ := List.append_cons _ _ _
  have hwithout : b.slotsOf name = (l₁ ++ [before]) ++ l₂ := by
    rw [h.without, List.append_cons]
  have hsame : ∀ l : List SlotId, (∀ x ∈ l, x ∈ b.slotsOf name) →
      l.filterMap b'.placed? = l.filterMap b.placed? := by
    intro l hl
    refine List.filterMap_congr fun x hx => placed?_congr ?_
    rw [h.place, if_neg]
    rintro rfl
    exact h.not_mem name (hl x hx)
  refine ⟨by rw [sequence, hwithout, List.filterMap_append], ?_⟩
  rw [sequence, h.slotsOf, if_pos rfl, hcut, List.filterMap_append,
    List.filterMap_cons_some (placed?_eq_some_iff.mpr ⟨rfl, by rw [h.place, if_pos rfl]⟩),
    hsame _ fun x hx => hwithout ▸ List.mem_append_left _ hx,
    hsame _ fun x hx => hwithout ▸ List.mem_append_right _ hx]

theorem Insertion.sequence_of_ne (h : Insertion b b' id name p l₁ before l₂) (hn : n ≠ name) :
    b'.sequence n = b.sequence n := by
  rw [sequence, sequence, h.slotsOf, if_neg hn]
  refine List.filterMap_congr fun x hx => placed?_congr ?_
  rw [h.place, if_neg]
  rintro rfl
  exact h.not_mem n hx

theorem Insertion.not_mem_sequence (h : Insertion b b' id name p l₁ before l₂) (n : String)
    (q : Position) : (id, q) ∉ b.sequence n :=
  fun hmem => h.not_mem n (mem_sequence_iff.mp hmem).1

theorem Insertion.joins (h : Insertion b b' id name p l₁ before l₂)
    (hafter : ∀ y ∈ l₂, b.isUpTo (.placed p) y = false) :
    Joins (id, p) (b.sequence name) (b'.sequence name) := by
  obtain ⟨hwithout, hwith⟩ := h.sequence_eq
  refine ⟨_, _, hwithout, hwith, ?_, ?_⟩
  · rintro ⟨y, q⟩ hy
    obtain ⟨y', hmem, hplaced⟩ := List.mem_filterMap.mp hy
    obtain ⟨rfl, hq⟩ := placed?_eq_some_iff.mp hplaced
    obtain ⟨place, hplace, hle⟩ := isUpTo_eq_true_iff.mp (h.upTo y' hmem)
    rw [hq] at hplace
    cases hplace
    exact hle
  · rintro ⟨y, q⟩ hy
    obtain ⟨y', hmem, hplaced⟩ := List.mem_filterMap.mp hy
    obtain ⟨rfl, hq⟩ := placed?_eq_some_iff.mp hplaced
    refine Position.not_le.mp fun hle => ?_
    have hupTo := isUpTo_eq_true_iff.mpr ⟨_, hq, SlotPlace.placed_le_placed.mpr hle⟩
    rw [hafter y' hmem] at hupTo
    cases hupTo

/-- Without the definition that was put in, a sequence is as before. -/
theorem Insertion.filter_sequence (h : Insertion b b' id name p l₁ before l₂) (n : String) :
    (b'.sequence n).filter (·.1 != id) = b.sequence n := by
  have hold : ∀ n, (b.sequence n).filter (·.1 != id) = b.sequence n := by
    intro n
    rw [List.filter_eq_self]
    rintro ⟨x, q⟩ hx
    rw [bne_iff_ne]
    rintro rfl
    exact h.not_mem_sequence n q hx
  by_cases hn : n = name
  · subst hn
    obtain ⟨hwithout, hwith⟩ := h.sequence_eq
    rw [hwith, List.filter_append, List.filter_cons_of_neg (by simp), ← List.filter_append, ← hwithout,
      hold]
  · rw [h.sequence_of_ne hn, hold]

end Insertion

/-! ### The operations -/

theorem sequence_addDefinition (hb : b.Consistent) (name : String) (p : Position) :
    Joins ((b.addDefinition name p).1, p) (b.sequence name)
        ((b.addDefinition name p).2.2.sequence name) ∧
      (∀ n ≠ name, (b.addDefinition name p).2.2.sequence n = b.sequence n) ∧
      ∀ n q, ((b.addDefinition name p).1, q) ∉ b.sequence n := by
  obtain ⟨c, opened, ho, hadded, -⟩ := addDefinition_spec hb name p
  obtain ⟨l₁, before, l₂, hins, hafter⟩ := hadded.insertion
  have hopened := ho.sequence_eq hb.toSound
  refine ⟨?_, fun n hn => ?_, fun n q => ?_⟩
  · rw [← hopened name]
    exact hins.joins hafter
  · rw [hins.sequence_of_ne hn, hopened]
  · rw [← hopened n]
    exact hins.not_mem_sequence n q

/-- A definition that moves within its place stays where it is. -/
theorem sequence_moveDefinition_of_same (h : (id, q) ∈ b.sequence name) (hsame : q.same p = true)
    (n : String) : (b.moveDefinition id p).2.sequence n = b.sequence n := by
  obtain ⟨slot, hslot, hplace⟩ := Option.map_eq_some_iff.mp (mem_sequence_iff.mp h).2
  rw [moveDefinition_of_same hslot hplace hsame]

/-- Only a definition can be moved. -/
theorem moveDefinition_of_not_mem (hb : b.Consistent) (h : ∀ n q, (id, q) ∉ b.sequence n) :
    b.moveDefinition id p = ({}, b) := by
  unfold moveDefinition
  cases hslot : b.slots[id]? with
  | none => rfl
  | some slot =>
    cases hplace : slot.place with
    | importer => simp only [hplace]
    | placed q =>
      have hmem : (id, q) ∈ b.sequence slot.name := by
        rw [mem_sequence_iff, place?, hslot, Option.map_some, hplace]
        exact ⟨hb.mem_slotsOf hslot (by simp), rfl⟩
      exact absurd hmem (h slot.name q)

/-- A definition that moves to another place is taken out and put in again. -/
theorem sequence_moveDefinition (hb : b.Consistent) (h : (id, q) ∈ b.sequence name)
    (hsame : q.same p = false) :
    Joins (id, p) ((b.sequence name).filter (·.1 != id))
        ((b.moveDefinition id p).2.sequence name) ∧
      ∀ n ≠ name, (b.moveDefinition id p).2.sequence n = b.sequence n := by
  obtain ⟨hmem, hid⟩ := mem_sequence_iff.mp h
  obtain ⟨slot, hslot, hplace⟩ := Option.map_eq_some_iff.mp hid
  have hmoved := (moveDefinition_spec hb hslot hplace hsame).1
  have hname : slot.name = name :=
    hb.toListed.name_eq_of_mem (hb.mem_slotsOf hslot (by simp)) hmem
  subst hname
  obtain ⟨c, old, l₁, before, l₂, m₁, before', m₂, hout, hin, hafter⟩ := hmoved.insertions
  refine ⟨?_, fun n hn => ?_⟩
  · rw [hout.filter_sequence]
    exact hin.joins hafter
  · rw [hin.sequence_of_ne hn, hout.sequence_of_ne hn]

theorem Removed.sequence_eq (h : Removed b c id name) (n : String) :
    c.sequence n = (b.sequence n).filter (·.1 != id) := by
  have hfilter : ∀ l : List SlotId, l.filterMap c.placed?
      = (l.filterMap b.placed?).filter (·.1 != id) := by
    intro l
    rw [List.filter_filterMap]
    refine List.filterMap_congr fun x _ => ?_
    by_cases hx : x = id
    · have hgone : c.placed? x = none := by
        rw [placed?, h.place, if_pos hx]
        rfl
      rw [hgone, eq_comm, Option.filter_eq_none_iff]
      rintro ⟨x', q⟩ hx'
      obtain ⟨rfl, -⟩ := placed?_eq_some_iff.mp hx'
      simpa using hx
    · have hsame : c.placed? x = b.placed? x := placed?_congr (by rw [h.place, if_neg hx])
      rw [hsame]
      cases hplaced : b.placed? x with
      | none => rfl
      | some placed =>
        obtain ⟨x', q⟩ := placed
        obtain ⟨rfl, -⟩ := placed?_eq_some_iff.mp hplaced
        rw [Option.filter_some, if_pos (by simpa using hx)]
  obtain ⟨l₁, before, l₂, hids, hslots⟩ := h.slotsOf
  rw [sequence, sequence, ← hfilter, hslots]
  by_cases hn : n = name
  · have hgone : c.placed? id = none := by
      rw [placed?, h.place, if_pos rfl]
      rfl
    have hcut : ∀ l : List SlotId, (l₁ ++ before :: l).filterMap c.placed?
        = (l₁ ++ [before]).filterMap c.placed? ++ l.filterMap c.placed? := by
      intro l
      rw [List.append_cons, List.filterMap_append]
    rw [if_pos hn, hn, hids, hcut l₂, hcut (id :: l₂), List.filterMap_cons_none hgone]
  · rw [if_neg hn]

theorem sequence_removeDefinition (hb : b.Consistent) (id : SlotId) (n : String) :
    (b.removeDefinition id).2.sequence n = (b.sequence n).filter (·.1 != id) := by
  have hnone : (∀ q, b.place? id ≠ some (.placed q)) →
      (b.sequence n).filter (·.1 != id) = b.sequence n := by
    intro hid
    rw [List.filter_eq_self]
    rintro ⟨x, q⟩ hx
    rw [bne_iff_ne]
    rintro rfl
    exact hid q (mem_sequence_iff.mp hx).2
  cases h : b.slots[id]? with
  | none =>
    rw [removeDefinition_of_none h, hnone]
    intro q
    rw [place?, h]
    simp
  | some slot =>
    by_cases hp : slot.place = .importer
    · rw [removeDefinition_of_importer h hp, hnone]
      intro q
      rw [place?, h, Option.map_some, hp]
      simp
    · obtain ⟨c, hremoved, heq, -⟩ := removeDefinition_spec hb h hp
      rw [heq, sequence_closeName hremoved.toSound, hremoved.sequence_eq]

theorem sequence_addReader (hb : b.Consistent) (name : String) (p : Position) (n : String) :
    (b.addReader name p).2.2.sequence n = b.sequence n := by
  obtain ⟨c, opened, ho, -, hanchored, -⟩ := addReader_spec hb name p
  rw [sequence_congr hanchored.slotsOf hanchored.place, ho.sequence_eq hb.toSound]

theorem sequence_moveReader (hb : b.Consistent) (r : ReaderId) (p : Position) (n : String) :
    (b.moveReader r p).2.sequence n = b.sequence n := by
  cases h : b.readers[r]? with
  | none => rw [moveReader_of_none h]
  | some reader =>
    have hanchored := (moveReader_spec hb h p).1
    exact sequence_congr hanchored.slotsOf hanchored.place n

theorem sequence_removeReader (hb : b.Consistent) (r : ReaderId) (n : String) :
    (b.removeReader r).2.sequence n = b.sequence n := by
  cases h : b.readers[r]? with
  | none => rw [removeReader_of_none h]
  | some reader =>
    obtain ⟨c, -, hdropped, heq, -⟩ := removeReader_spec hb h
    rw [heq, sequence_closeName hdropped.toSound, sequence_congr hdropped.slotsOf hdropped.place]

theorem sequence_setValue (hb : b.Consistent) (id : SlotId) (v : SlotValue) (n : String) :
    (b.setValue id v).2.sequence n = b.sequence n := by
  obtain ⟨hslots, hplace, -, -⟩ := setValue_frame hb id v
  exact sequence_congr hslots hplace n

theorem sequence_setImported (hb : b.Consistent) (name : String) (v : SlotValue) (n : String) :
    (b.setImported name v).2.sequence n = b.sequence n := by
  unfold setImported
  split
  · exact sequence_setValue hb _ v n
  · rfl

end Bindings

end MathCanvas
