import Mathlib.Data.List.Induction
import Mathlib.Data.String.Basic
import MathCanvas.Json.Basic

/-!
# Fields sorted by name

Inserting a field keeps the fields sorted (`Json.sorted_sortFields`), and sorting what is sorted
changes nothing (`Json.sortFields_eq_self`).
-/

namespace MathCanvas

namespace Json

variable {α β : Type} {name : String} {value : α} {fields : List (String × α)}

/-- The names increase, so that none is repeated. -/
def Sorted (fields : List (String × α)) : Prop := fields.Pairwise fun a b => a.1 < b.1

theorem Sorted.map (f : α → β) (h : Sorted fields) :
    Sorted (fields.map fun field => (field.1, f field.2)) :=
  List.Pairwise.map _ (fun _ _ hlt => hlt) h

theorem mem_insertField {field : String × α} (h : field ∈ insertField name value fields) :
    field = (name, value) ∨ field ∈ fields := by
  induction fields with
  | nil => exact .inl (List.mem_singleton.mp h)
  | cons first rest ih =>
    rw [insertField] at h
    split at h
    · exact List.mem_cons.mp h
    · split at h
      · exact (List.mem_cons.mp h).imp_right (List.mem_cons_of_mem _)
      · rcases List.mem_cons.mp h with rfl | h
        · exact .inr List.mem_cons_self
        · exact (ih h).imp_right (List.mem_cons_of_mem _)

/-- A name beyond all others goes to the end. -/
theorem insertField_eq_concat (h : ∀ field ∈ fields, field.1 < name) :
    insertField name value fields = fields ++ [(name, value)] := by
  induction fields with
  | nil => rfl
  | cons first rest ih =>
    rw [List.forall_mem_cons] at h
    rw [insertField, if_neg (not_lt_of_gt h.1), if_neg (by simpa using ne_of_lt h.1), ih h.2,
      List.cons_append]

/-- Induction on the fields yet to be sorted in. -/
theorem sortFields_induction {motive : List (String × α) → Prop} (nil : motive [])
    (insert : ∀ sorted, ∀ field ∈ fields, motive sorted →
      motive (insertField field.1 field.2 sorted)) : motive (sortFields fields) := by
  refine List.foldlRecOn fields _ nil ?_
  exact fun sorted hsorted field hfield => insert sorted field hfield hsorted

/-- Sorting adds no field. -/
theorem sortFields_subset (fields : List (String × α)) : sortFields fields ⊆ fields := by
  refine sortFields_induction (motive := (· ⊆ fields)) (List.nil_subset _)
    fun sorted field hfield ih other hother => ?_
  rcases mem_insertField hother with rfl | hother
  · exact hfield
  · exact ih hother

/-- Fields that are sorted stay as they are. -/
theorem sortFields_eq_self (h : Sorted fields) : sortFields fields = fields := by
  induction fields using List.reverseRecOn with
  | nil => rfl
  | append_singleton fields field ih =>
    obtain ⟨hfields, -, hlt⟩ := List.pairwise_append.mp h
    have hlast : insertField field.1 field.2 fields = fields ++ [field] :=
      insertField_eq_concat fun other hother => hlt other hother field List.mem_cons_self
    rw [sortFields, List.foldl_concat]
    show insertField field.1 field.2 (sortFields fields) = _
    rw [ih hfields, hlast]

end Json

end MathCanvas
