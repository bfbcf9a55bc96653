import MathCanvas.Binding.Slot
import Mathlib.Data.List.Basic
import Mathlib.Data.List.Perm.Basic

/-!
# Order facts

The reading order of positions and the order of places are total preorders: `not_lt`, `lt_trans_le`
and `lt_of_le_lt` are what the proofs about lists of slots need of them. Two positions are `same` iff
neither is before the other.

The second part is about `sortBy`. The result is a permutation of the list (`perm_sortBy`), it is
sorted if the test is total and transitive (`pairwise_sortBy`), and a list that is strictly sorted is
determined by its members (`eq_of_mem_iff_of_pairwise`).
-/

namespace MathCanvas

/-! ### Positions -/

namespace Position

theorem not_lt {p q : Position} : ¬p < q ↔ q ≤ p := by
  simp only [le_def, lt_def]; omega

theorem le_of_lt {p q : Position} (h : p < q) : p ≤ q := by
  simp only [le_def, lt_def] at *; omega

theorem lt_irrefl (p : Position) : ¬p < p := by
  simp only [lt_def]; omega

theorem lt_trans_le {p q r : Position} (hpq : p < q) (hqr : q ≤ r) : p < r := by
  simp only [le_def, lt_def] at *; omega

theorem lt_of_le_lt {p q r : Position} (hpq : p ≤ q) (hqr : q < r) : p < r := by
  simp only [le_def, lt_def] at *; omega

theorem same_iff {p q : Position} : p.same q = true ↔ p ≤ q ∧ q ≤ p := by
  simp only [same, le_def, Bool.and_eq_true, beq_iff_eq]; omega

end Position

/-! ### Places -/

namespace SlotPlace

theorem importer_le (a : SlotPlace) : SlotPlace.importer ≤ a := trivial

theorem placed_le_placed {p q : Position} : SlotPlace.placed p ≤ .placed q ↔ p ≤ q := Iff.rfl

theorem not_lt {a b : SlotPlace} : ¬a < b ↔ b ≤ a := by
  rw [← not_le, Decidable.not_not]

theorem le_refl (a : SlotPlace) : a ≤ a := by
  cases a with
  | importer => exact importer_le _
  | placed p => exact Position.le_refl p

theorem le_trans {a b c : SlotPlace} (hab : a ≤ b) (hbc : b ≤ c) : a ≤ c := by
  cases a with
  | importer => exact importer_le c
  | placed p =>
    cases b with
    | importer => exact hab.elim
    | placed q =>
      cases c with
      | importer => exact hbc.elim
      | placed r => exact Position.le_trans hab hbc

theorem le_of_lt {a b : SlotPlace} (h : a < b) : a ≤ b := by
  cases a with
  | importer => exact importer_le b
  | placed p =>
    cases b with
    | importer => exact h.elim
    | placed q => exact Position.le_of_lt h

theorem lt_trans_le {a b c : SlotPlace} (hab : a < b) (hbc : b ≤ c) : a < c := by
  rw [← not_le]
  intro hca
  exact not_le.mpr hab (le_trans hbc hca)

theorem lt_of_le_lt {a b c : SlotPlace} (hab : a ≤ b) (hbc : b < c) : a < c := by
  rw [← not_le]
  intro hca
  exact not_le.mpr hbc (le_trans hca hab)

theorem isImporter_iff {a : SlotPlace} : a.isImporter = true ↔ a = .importer := by
  cases a <;> simp [isImporter]

end SlotPlace

/-! ### Sorting -/

variable {α : Type}

theorem perm_insertSorted (le : α → α → Bool) (x : α) (l : List α) :
    (insertSorted le x l).Perm (x :: l) := by
  induction l with
  | nil => exact List.Perm.refl _
  | cons y rest ih =>
    rw [insertSorted]
    split
    · exact List.Perm.refl _
    · exact (ih.cons y).trans (List.Perm.swap x y rest)

theorem perm_sortBy (le : α → α → Bool) (l : List α) : (sortBy le l).Perm l := by
  induction l with
  | nil => exact List.Perm.refl _
  | cons x rest ih => exact (perm_insertSorted le x _).trans (ih.cons x)

theorem pairwise_insertSorted {le : α → α → Bool} (total : ∀ x y, le x y = true ∨ le y x = true)
    (trans : ∀ x y z, le x y = true → le y z = true → le x z = true) (x : α) {l : List α}
    (hl : l.Pairwise fun a b => le a b = true) :
    (insertSorted le x l).Pairwise fun a b => le a b = true := by
  induction l with
  | nil => exact List.pairwise_singleton _ _
  | cons y rest ih =>
    rw [List.pairwise_cons] at hl
    rw [insertSorted]
    split
    · rename_i hxy
      refine List.pairwise_cons.mpr ⟨?_, List.pairwise_cons.mpr hl⟩
      intro z hz
      rcases List.mem_cons.mp hz with rfl | hz
      · exact hxy
      · exact trans x y z hxy (hl.1 z hz)
    · rename_i hxy
      refine List.pairwise_cons.mpr ⟨?_, ih hl.2⟩
      intro z hz
      rcases mem_insertSorted.mp hz with rfl | hz
      · exact (total z y).resolve_left hxy
      · exact hl.1 z hz

theorem pairwise_sortBy {le : α → α → Bool} (total : ∀ x y, le x y = true ∨ le y x = true)
    (trans : ∀ x y z, le x y = true → le y z = true → le x z = true) (l : List α) :
    (sortBy le l).Pairwise fun a b => le a b = true := by
  induction l with
  | nil => exact List.Pairwise.nil
  | cons x rest ih => exact pairwise_insertSorted total trans x ih

/-- Two lists with the same members that are strictly sorted by one relation are equal. -/
theorem eq_of_mem_iff_of_pairwise {lt : α → α → Prop} (asymm : ∀ x y, lt x y → ¬lt y x)
    {l m : List α} (hl : l.Pairwise lt) (hm : m.Pairwise lt) (h : ∀ x, x ∈ l ↔ x ∈ m) :
    l = m := by
  have irrefl : ∀ x, ¬lt x x := fun x hx => asymm x x hx hx
  have hlm : l.Perm m := by
    rw [List.perm_ext_iff_of_nodup]
    · exact h
    · refine List.Pairwise.imp ?_ hl
      rintro x y hxy rfl
      exact irrefl x hxy
    · refine List.Pairwise.imp ?_ hm
      rintro x y hxy rfl
      exact irrefl x hxy
  exact hlm.eq_of_pairwise (fun x y _ _ hxy hyx => absurd hyx (asymm x y hxy)) hl hm

end MathCanvas
