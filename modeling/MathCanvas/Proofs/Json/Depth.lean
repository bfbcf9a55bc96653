import MathCanvas.Json.Source

/-!
# The depth of a JSON value

The levels of arrays and objects that a value nests. Reading a text bounds them
(`JsonSource.depth_le_of_toJson?`).
-/

namespace MathCanvas

namespace Json

mutual

/-- The levels of arrays and objects in a value; a number, a string or a word has none. -/
def depth : Json → Nat
  | .arr items => depthItems items + 1
  | .obj fields => depthFields fields + 1
  | _ => 0

def depthItems : List Json → Nat
  | [] => 0
  | item :: rest => max (depth item) (depthItems rest)

def depthFields : List (String × Json) → Nat
  | [] => 0
  | (_, value) :: rest => max (depth value) (depthFields rest)

end

variable {name : String} {value : Json} {items : List Json} {fields : List (String × Json)}

theorem depth_le_depthItems (h : value ∈ items) : value.depth ≤ depthItems items := by
  induction items with
  | nil => cases h
  | cons item rest ih =>
    rw [depthItems]
    cases h with
    | head => exact Nat.le_max_left _ _
    | tail _ h => exact Nat.le_trans (ih h) (Nat.le_max_right _ _)

theorem depth_le_depthFields (h : (name, value) ∈ fields) : value.depth ≤ depthFields fields := by
  induction fields with
  | nil => cases h
  | cons field rest ih =>
    rw [depthFields]
    cases h with
    | head => exact Nat.le_max_left _ _
    | tail _ h => exact Nat.le_trans (ih h) (Nat.le_max_right _ _)

theorem depthFields_le {n : Nat} (h : ∀ field ∈ fields, field.2.depth ≤ n) :
    depthFields fields ≤ n := by
  induction fields with
  | nil => exact Nat.zero_le n
  | cons field rest ih =>
    rw [List.forall_mem_cons] at h
    exact Nat.max_le.mpr ⟨h.1, ih h.2⟩

end Json

namespace JsonSource

mutual

/-- A value that is read within a limit nests no deeper. -/
theorem depth_le_of_toJson? {depth : Nat} {value : Json} : (source : JsonSource) →
    toJson? depth source = some value → value.depth ≤ depth
  | .null, h | .bool _, h => by
    simp only [toJson?, Option.some_inj] at h
    subst h
    exact Nat.zero_le depth
  | .num _, h | .str _, h => by
    simp only [toJson?, Option.map_eq_some_iff] at h
    obtain ⟨_, _, rfl⟩ := h
    exact Nat.zero_le depth
  | .arr items, h => by
    rw [toJson?, Option.ite_none_left_eq_some, Option.map_eq_some_iff] at h
    obtain ⟨hne, values, hvalues, rfl⟩ := h
    have := depthItems_le_of_toJson? items hvalues
    rw [Json.depth]
    omega
  | .obj fields, h => by
    rw [toJson?, Option.ite_none_left_eq_some, Option.map_eq_some_iff] at h
    obtain ⟨hne, values, hvalues, rfl⟩ := h
    have := depthFields_le_of_toJson? fields hvalues
    rw [Json.depth]
    omega

theorem depthItems_le_of_toJson? {depth : Nat} {values : List Json} : (items : List JsonSource) →
    itemsToJson? depth items = some values → Json.depthItems values ≤ depth
  | [], h => by
    rw [itemsToJson?, Option.some_inj] at h
    subst h
    exact Nat.zero_le depth
  | item :: rest, h => by
    rw [itemsToJson?] at h
    split at h
    · next hitem hrest =>
      cases h
      exact Nat.max_le.mpr ⟨depth_le_of_toJson? item hitem, depthItems_le_of_toJson? rest hrest⟩
    · cases h

theorem depthFields_le_of_toJson? {depth : Nat} {values : List (String × Json)} :
    (fields : List (Option String × JsonSource)) →
    fieldsToJson? depth fields = some values → Json.depthFields values ≤ depth
  | [], h => by
    rw [fieldsToJson?, Option.some_inj] at h
    subst h
    exact Nat.zero_le depth
  | (name, source) :: rest, h => by
    unfold fieldsToJson? at h
    split at h
    · next hsource hrest =>
      cases h
      exact Nat.max_le.mpr
        ⟨depth_le_of_toJson? source hsource, depthFields_le_of_toJson? rest hrest⟩
    · cases h

end

end JsonSource

end MathCanvas
