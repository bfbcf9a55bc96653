/-!
# Sorting by insertion

`sortBy le` sorts a list by a test for "not after". Elements that the test does not tell apart keep
their sequence.
-/

namespace MathCanvas

variable {α : Type}

/-- Puts an element before the first one that it is not after. -/
def insertSorted (le : α → α → Bool) (x : α) : List α → List α
  | [] => [x]
  | y :: rest => if le x y then x :: y :: rest else y :: insertSorted le x rest

/-- The list sorted by `le`, stably. -/
def sortBy (le : α → α → Bool) : List α → List α
  | [] => []
  | x :: rest => insertSorted le x (sortBy le rest)

theorem length_insertSorted (le : α → α → Bool) (x : α) (l : List α) :
    (insertSorted le x l).length = l.length + 1 := by
  induction l with
  | nil => rfl
  | cons y rest ih =>
    rw [insertSorted]
    split
    · rfl
    · rw [List.length_cons, ih, List.length_cons]

theorem length_sortBy (le : α → α → Bool) (l : List α) : (sortBy le l).length = l.length := by
  induction l with
  | nil => rfl
  | cons x rest ih => rw [sortBy, length_insertSorted, ih, List.length_cons]

theorem mem_insertSorted {le : α → α → Bool} {x z : α} {l : List α} :
    z ∈ insertSorted le x l ↔ z = x ∨ z ∈ l := by
  induction l with
  | nil => simp [insertSorted]
  | cons y rest ih =>
    rw [insertSorted]
    split
    · simp
    · simp only [List.mem_cons, ih]
      constructor
      · rintro (rfl | rfl | h) <;> simp [*]
      · rintro (rfl | rfl | h) <;> simp [*]

theorem mem_sortBy {le : α → α → Bool} {z : α} {l : List α} : z ∈ sortBy le l ↔ z ∈ l := by
  induction l with
  | nil => rfl
  | cons x rest ih => rw [sortBy, mem_insertSorted, ih, List.mem_cons]

end MathCanvas
