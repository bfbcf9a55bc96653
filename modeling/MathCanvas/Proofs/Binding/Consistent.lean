import MathCanvas.Binding.Update
import MathCanvas.Proofs.Lookup
import MathCanvas.Proofs.Order
import Mathlib.Data.List.Nodup

/-!
# Consistent bindings

The representation invariant of `Bindings`, in four parts that the operations break and restore one
at a time:

* `Listed`: the lists and the arena of slots agree, each slot has its index and its name, the
  importer is the first of its list and the only one, and positions do not decrease. One slot may be
  *loose*: stored, but in no list, which is how a definition is while it is put in or taken out.
* `Claimed`: readers and slots agree on who observes whom.
* `Within`: every reader observes the last slot at or before its position (`lastUpTo?`).
* `Numbered`: every number in use has been given out.

Together they are `Sound`. `Consistent` adds that no name is in use without need, which is to say
that a list without definitions has a reader (`Sound.consistent_iff`).
-/

namespace MathCanvas

namespace Bindings

/-! ### The parts of the invariant -/

/-- The lists of names and the arena of slots agree; the slot `loose` is in no list. -/
structure Listed (b : Bindings) (loose : Option SlotId) : Prop where
  ne_nil : ∀ name : String, b.lists[name]? ≠ some []
  stored : ∀ {name : String} {i : Nat} {id : SlotId}, (b.slotsOf name)[i]? = some id →
    ∃ slot, b.slots[id]? = some slot ∧ slot.name = name ∧ slot.index = i ∧
      (slot.place = .importer ↔ i = 0)
  listed : ∀ {id : SlotId} {slot : Slot}, b.slots[id]? = some slot → loose ≠ some id →
    (b.slotsOf slot.name)[slot.index]? = some id
  not_mem_of_loose : ∀ {id : SlotId}, loose = some id → ∀ name : String, id ∉ b.slotsOf name
  ordered : ∀ name : String, (b.slotsOf name).Pairwise fun x y =>
    ∀ p q, b.place? x = some p → b.place? y = some q → p ≤ q

/-- Every reader is held by exactly one slot, once: by the slot that it observes. -/
structure Claimed (b : Bindings) : Prop where
  held : ∀ {r : ReaderId} {reader : Reader}, b.readers[r]? = some reader →
    ∃ slot, b.slots[reader.slot]? = some slot ∧ slot.name = reader.name ∧ r ∈ slot.readers
  observes : ∀ {id : SlotId} {slot : Slot} {r : ReaderId}, b.slots[id]? = some slot →
    r ∈ slot.readers → ∃ reader, b.readers[r]? = some reader ∧ reader.slot = id
  nodup : ∀ {id : SlotId} {slot : Slot}, b.slots[id]? = some slot → slot.readers.Nodup

/-- The last slot of a name at or before a position. -/
def lastUpTo? (b : Bindings) (name : String) (p : Position) : Option SlotId :=
  ((b.slotsOf name).filter (b.isUpTo (.placed p))).getLast?

/-- Every reader observes the last slot at or before its position. -/
def Within (b : Bindings) : Prop :=
  ∀ {r : ReaderId} {reader : Reader}, b.readers[r]? = some reader →
    b.lastUpTo? reader.name reader.position = some reader.slot

/-- Only numbers that were given out are in use. -/
structure Numbered (b : Bindings) : Prop where
  slot_lt : ∀ {id : SlotId} {slot : Slot}, b.slots[id]? = some slot → id < b.nextId
  reader_lt : ∀ {r : ReaderId} {reader : Reader}, b.readers[r]? = some reader → r < b.nextId

/-- No name is in use without a definition or a reader of its importer. -/
def Needed (b : Bindings) : Prop :=
  ∀ {name : String} {importer : SlotId}, b.slotsOf name = [importer] → b.isRead importer = true

/-- The invariant, except that names may be in use without need. -/
structure Sound (b : Bindings) : Prop extends Listed b none, Claimed b, Numbered b where
  within : b.Within

/-- The invariant between two operations. -/
structure Consistent (b : Bindings) : Prop extends Sound b where
  needed : b.Needed

theorem consistent_empty : Consistent empty where
  ne_nil name := by simp [empty]
  stored h := by simp [slotsOf, empty] at h
  listed h := by simp [empty] at h
  not_mem_of_loose h := by simp at h
  ordered name := by simp [slotsOf, empty]
  held h := by simp [empty] at h
  observes h := by simp [empty] at h
  nodup h := by simp [empty] at h
  slot_lt h := by simp [empty] at h
  reader_lt h := by simp [empty] at h
  within h := by simp [empty] at h
  needed h := by simp [slotsOf, empty] at h

/-! ### Lists of slots -/

theorem slotsOf_of_lookup {b : Bindings} {name : String} {ids : List SlotId}
    (h : b.lists[name]? = some ids) : b.slotsOf name = ids := by
  rw [slotsOf, h, Option.getD_some]

theorem slotsOf_eq_nil_iff {b : Bindings} {loose : Option SlotId} (hb : b.Listed loose)
    {name : String} : b.slotsOf name = [] ↔ b.lists[name]? = none := by
  unfold slotsOf
  cases h : b.lists[name]? with
  | none => simp
  | some ids =>
    have : ids ≠ [] := fun hnil => hb.ne_nil name (by rw [h, hnil])
    simpa using this

theorem lookup_of_slotsOf_ne_nil {b : Bindings} {name : String} (h : b.slotsOf name ≠ []) :
    b.lists[name]? = some (b.slotsOf name) := by
  unfold slotsOf at *
  cases hl : b.lists[name]? with
  | none => simp [hl] at h
  | some ids => rfl

theorem contains_iff_slotsOf_ne_nil {b : Bindings} {loose : Option SlotId} (hb : b.Listed loose)
    {name : String} : b.lists.contains name = true ↔ b.slotsOf name ≠ [] := by
  rw [Ne, slotsOf_eq_nil_iff hb, Std.TreeMap.contains_eq_isSome_getElem?,
    Option.isSome_iff_ne_none]

/-- In a list without repetition, the head is what stands at index zero. -/
theorem head?_eq_some_iff_index {α : Type} {l : List α} (hl : l.Nodup) {i : Nat} {x : α}
    (h : l[i]? = some x) : l.head? = some x ↔ i = 0 := by
  rw [List.head?_eq_getElem?]
  constructor
  · intro h₀
    obtain ⟨hi, -⟩ := List.getElem?_eq_some_iff.mp h
    exact (List.getElem?_inj hi hl).mp (h.trans h₀.symm)
  · rintro rfl
    exact h

namespace Listed

variable {b : Bindings} {loose : Option SlotId}

theorem nodup_slotsOf (hb : b.Listed loose) (name : String) : (b.slotsOf name).Nodup := by
  rw [List.nodup_iff_getElem?_ne_getElem?]
  intro i j hij hj heq
  obtain ⟨id, hid⟩ : ∃ id, (b.slotsOf name)[j]? = some id :=
    ⟨_, List.getElem?_eq_getElem hj⟩
  obtain ⟨slot, hslot, -, hindex, -⟩ := hb.stored (heq.trans hid)
  obtain ⟨slot', hslot', -, hindex', -⟩ := hb.stored hid
  rw [hslot] at hslot'
  cases hslot'
  omega

/-- A listed slot is stored. -/
theorem stored_of_mem (hb : b.Listed loose) {name : String} {id : SlotId}
    (h : id ∈ b.slotsOf name) : ∃ slot, b.slots[id]? = some slot ∧ slot.name = name := by
  obtain ⟨i, hi⟩ := List.mem_iff_getElem?.mp h
  obtain ⟨slot, hslot, hname, -⟩ := hb.stored hi
  exact ⟨slot, hslot, hname⟩

theorem mem_slotsOf (hb : b.Listed loose) {id : SlotId} {slot : Slot}
    (h : b.slots[id]? = some slot) (hl : loose ≠ some id) : id ∈ b.slotsOf slot.name :=
  List.mem_of_getElem? (hb.listed h hl)

/-- A list of slots is an importer followed by definitions. -/
theorem exists_cons (hb : b.Listed loose) {name : String} (h : b.slotsOf name ≠ []) :
    ∃ importer rest, b.slotsOf name = importer :: rest ∧
      b.place? importer = some .importer ∧
      ∀ id ∈ rest, ∃ p, b.place? id = some (.placed p) := by
  obtain ⟨importer, rest, hids⟩ := List.exists_cons_of_ne_nil h
  refine ⟨importer, rest, hids, ?_, ?_⟩
  · obtain ⟨slot, hslot, -, -, hplace⟩ := hb.stored
      (show (b.slotsOf name)[0]? = some importer by rw [hids]; rfl)
    rw [place?, hslot, Option.map_some, hplace.mpr rfl]
  · intro id hid
    obtain ⟨i, hi⟩ := List.mem_iff_getElem?.mp hid
    obtain ⟨slot, hslot, -, -, hplace⟩ :=
      hb.stored (show (b.slotsOf name)[i + 1]? = some id by rw [hids]; exact hi)
    cases hp : slot.place with
    | importer => exact absurd (hplace.mp hp) (by omega)
    | placed p => exact ⟨p, by rw [place?, hslot, Option.map_some, hp]⟩

/-- The importer of a name is the head of its list. -/
theorem place_eq_importer_iff (hb : b.Listed loose) {name : String} {id : SlotId} {slot : Slot}
    (h : b.slots[id]? = some slot) (hmem : id ∈ b.slotsOf name) :
    slot.place = .importer ↔ (b.slotsOf name).head? = some id := by
  obtain ⟨i, hi⟩ := List.mem_iff_getElem?.mp hmem
  obtain ⟨slot', hslot', -, -, hplace⟩ := hb.stored hi
  rw [h] at hslot'
  cases hslot'
  rw [hplace, head?_eq_some_iff_index (hb.nodup_slotsOf name) hi]

end Listed

/-! ### The last slot up to a position -/

theorem isUpTo_eq_true_iff {b : Bindings} {place : SlotPlace} {id : SlotId} :
    b.isUpTo place id = true ↔ ∃ q, b.place? id = some q ∧ q ≤ place := by
  unfold isUpTo
  cases b.place? id <;> simp

theorem isUpTo_congr {b b' : Bindings} (h : ∀ id, b'.place? id = b.place? id) (place : SlotPlace) :
    b'.isUpTo place = b.isUpTo place := by
  funext id
  rw [isUpTo, isUpTo, h]

theorem lastUpTo?_congr {b b' : Bindings} {name : String} (hs : b'.slotsOf name = b.slotsOf name)
    (hp : ∀ id, b'.place? id = b.place? id) (p : Position) :
    b'.lastUpTo? name p = b.lastUpTo? name p := by
  rw [lastUpTo?, lastUpTo?, hs, isUpTo_congr hp]

theorem mem_of_lastUpTo? {b : Bindings} {name : String} {p : Position} {id : SlotId}
    (h : b.lastUpTo? name p = some id) : id ∈ b.slotsOf name :=
  List.mem_of_mem_filter (List.mem_of_getLast? h)

/-- In a list without repetition, the last element that passes a test is the one that passes it and
has only failures behind it. -/
theorem getLast?_filter_eq_some_iff {α : Type} {f : α → Bool} {l₁ l₂ : List α} {x : α}
    (hl : (l₁ ++ x :: l₂).Nodup) :
    ((l₁ ++ x :: l₂).filter f).getLast? = some x ↔ f x = true ∧ ∀ y ∈ l₂, f y = false := by
  have hx : x ∉ l₁ ∧ x ∉ l₂ := by
    rw [List.nodup_append, List.nodup_cons] at hl
    exact ⟨fun h => hl.2.2 x h x (List.mem_cons_self) rfl, hl.2.1.1⟩
  rw [List.filter_append, List.filter_cons]
  constructor
  · intro h
    have hfx : f x = true := List.of_mem_filter (p := f) (a := x) (l := l₁ ++ x :: l₂) (by
      rw [List.filter_append, List.filter_cons]; exact List.mem_of_getLast? h)
    refine ⟨hfx, ?_⟩
    by_contra hne
    push Not at hne
    obtain ⟨y, hy, hfy⟩ := hne
    have hfy : f y = true := by simpa using hfy
    have hl₂ : l₂.filter f ≠ [] := List.ne_nil_of_mem (List.mem_filter.mpr ⟨hy, hfy⟩)
    rw [if_pos hfx, List.getLast?_append, List.getLast?_cons, List.getLast?_eq_some_getLast hl₂] at h
    simp only [Option.getD_some, Option.some_or, Option.some.injEq] at h
    exact hx.2 (List.mem_of_mem_filter (h ▸ List.getLast_mem hl₂))
  · rintro ⟨hfx, hl₂⟩
    have hnil : l₂.filter f = [] := List.filter_eq_nil_iff.mpr fun y hy => by simp [hl₂ y hy]
    rw [if_pos hfx, hnil]
    simp

end Bindings

end MathCanvas
