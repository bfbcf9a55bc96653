import MathCanvas.Proofs.Binding.Parts
import Mathlib.Data.List.TakeWhile

/-!
# Lists with and without a definition

The list of a name is cut at a position (`Listed.exists_cut`): behind the cut are the slots after
the position, and the last slot before it is the one that a reader there observes
(`Listed.slotAt?_eq`). A definition is put in at the cut.

Two tables that differ by one definition are an `Insertion`. That determines which readers come
within reach of another slot (`Insertion.lastUpTo?_eq`, and `Insertion.lastUpTo?_without` for the
way back), whatever the readers are bound to at the moment.
-/

namespace MathCanvas

namespace Bindings

variable {b : Bindings}

theorem insertIdx_length_succ {α : Type} (l₁ l₂ : List α) (x y : α) :
    (l₁ ++ x :: l₂).insertIdx (l₁.length + 1) y = l₁ ++ x :: y :: l₂ := by
  induction l₁ with
  | nil => rfl
  | cons z rest ih => simpa using ih

theorem eraseIdx_length_succ {α : Type} (l₁ l₂ : List α) (x y : α) :
    (l₁ ++ x :: y :: l₂).eraseIdx (l₁.length + 1) = l₁ ++ x :: l₂ := by
  induction l₁ with
  | nil => rfl
  | cons z rest ih => simpa using ih

/-! ### Cutting a list at a position -/

/-- Behind the first slot of a list that is after a place, all are after it. -/
theorem Listed.after_of_head? {loose : Option SlotId} (hb : b.Listed loose) {name : String}
    {l₁ l₂ : List SlotId} (hids : b.slotsOf name = l₁ ++ l₂) {place : SlotPlace}
    (h : ∀ z, l₂.head? = some z → b.isUpTo place z = false) :
    ∀ y ∈ l₂, b.isUpTo place y = false := by
  intro y hy
  obtain ⟨z, rest, rfl⟩ := List.exists_cons_of_ne_nil (List.ne_nil_of_mem hy)
  have hz : b.isUpTo place z = false := h z rfl
  rcases List.mem_cons.mp hy with rfl | hy
  · exact hz
  · by_contra hupTo
    obtain ⟨q, hq, hqp⟩ := isUpTo_eq_true_iff.mp (by simpa using hupTo)
    obtain ⟨s, hs, -⟩ := hb.stored_of_mem (show z ∈ b.slotsOf name by simp [hids])
    have hzs : b.place? z = some s.place := by rw [place?, hs, Option.map_some]
    have hordered := hb.ordered name
    rw [hids, List.pairwise_append, List.pairwise_cons] at hordered
    have hupTo : b.isUpTo place z = true := isUpTo_eq_true_iff.mpr
      ⟨_, hzs, SlotPlace.le_trans (hordered.2.1.1 y hy _ _ hzs hq) hqp⟩
    rw [hz] at hupTo
    cases hupTo

/-- A list of slots, cut behind the last slot that is not after a position. -/
theorem Listed.exists_cut {loose : Option SlotId} (hb : b.Listed loose) {name : String}
    (h : b.slotsOf name ≠ []) (p : Position) :
    ∃ l₁ l₂ before, b.slotsOf name = l₁ ++ before :: l₂ ∧
      b.indexAfter (b.slotsOf name) p = l₁.length + 1 ∧
      (∀ x ∈ l₁ ++ [before], b.isUpTo (.placed p) x = true) ∧
      ∀ y ∈ l₂, b.isUpTo (.placed p) y = false := by
  obtain ⟨importer, rest, hids, himporter, -⟩ := hb.exists_cons h
  set f := b.isUpTo (.placed p) with hf
  have hsplit : b.slotsOf name = (importer :: rest.takeWhile f) ++ rest.dropWhile f := by
    rw [hids, List.cons_append, List.takeWhile_append_dropWhile]
  have hdrop : ∀ y ∈ rest.dropWhile f, f y = false := by
    refine hb.after_of_head? hsplit fun z hz => ?_
    have hne : rest.dropWhile f ≠ [] := fun hnil => by simp [hnil] at hz
    have hnot := List.head_dropWhile_not f (l := rest) hne
    rw [List.head?_eq_some_head hne, Option.some.injEq] at hz
    rwa [hz] at hnot
  have htake : ∀ x ∈ importer :: rest.takeWhile f, f x = true := by
    intro x hx
    rcases List.mem_cons.mp hx with rfl | hx
    · exact isUpTo_eq_true_iff.mpr ⟨_, himporter, SlotPlace.importer_le _⟩
    · exact List.mem_takeWhile_imp hx
  obtain ⟨l₁, before, hl⟩ : ∃ l₁ before, importer :: rest.takeWhile f = l₁ ++ [before] :=
    ⟨_, _, (List.dropLast_append_getLast (by simp)).symm⟩
  refine ⟨l₁, rest.dropWhile f, before, ?_, ?_, ?_, hdrop⟩
  · rw [hsplit, hl, List.append_assoc, List.singleton_append]
  · have hlen := congrArg List.length hl
    simp only [List.length_cons, List.length_append, List.length_nil] at hlen
    rw [indexAfter, hids, List.drop_one, List.tail_cons, ← hf]
    omega
  · rw [← hl]
    exact htake

/-- The slot that a new reader observes is the last one up to its position. -/
theorem Listed.slotAt?_eq {loose : Option SlotId} (hb : b.Listed loose) {name : String}
    (p : Position) : b.slotAt? name p = b.lastUpTo? name p := by
  by_cases h : b.slotsOf name = []
  · simp [slotAt?, lastUpTo?, h]
  · obtain ⟨l₁, l₂, before, hids, hindex, hupTo, hafter⟩ := hb.exists_cut h p
    have hlast : b.lastUpTo? name p = some before := by
      rw [lastUpTo?, hids, getLast?_filter_eq_some_iff]
      · exact ⟨hupTo before (by simp), hafter⟩
      · rw [← hids]
        exact hb.nodup_slotsOf name
    rw [hlast, slotAt?, hindex, hids]
    simp

/-! ### Two tables that differ by a definition -/

/-- The second table is the first with a definition put in at `p`, behind the slot `before`. -/
structure Insertion (b b' : Bindings) (id : SlotId) (name : String) (p : Position)
    (l₁ : List SlotId) (before : SlotId) (l₂ : List SlotId) : Prop where
  without : b.slotsOf name = l₁ ++ before :: l₂
  slotsOf : ∀ n : String, b'.slotsOf n = if n = name then l₁ ++ before :: id :: l₂ else b.slotsOf n
  place : ∀ x, b'.place? x = if x = id then some (.placed p) else b.place? x
  upTo : ∀ x ∈ l₁ ++ [before], b.isUpTo (.placed p) x = true
  nodup : (b.slotsOf name).Nodup
  not_mem : ∀ n : String, id ∉ b.slotsOf n

namespace Insertion

variable {b' : Bindings} {id : SlotId} {name : String} {p : Position} {l₁ l₂ : List SlotId}
  {before : SlotId}

theorem nodup_with (h : Insertion b b' id name p l₁ before l₂) :
    (l₁ ++ before :: id :: l₂).Nodup := by
  have hnodup := h.nodup
  have hnot := h.not_mem name
  rw [h.without] at hnodup hnot
  have hperm : (id :: (l₁ ++ before :: l₂)).Perm (l₁ ++ before :: id :: l₂) := by
    rw [List.append_cons, List.append_cons l₁ before (id :: l₂)]
    exact List.perm_middle.symm
  exact hperm.nodup_iff.mp (List.nodup_cons.mpr ⟨hnot, hnodup⟩)

/-- A slot other than the new one is up to a place in both tables or in neither. -/
theorem filter_isUpTo (h : Insertion b b' id name p l₁ before l₂) (place : SlotPlace)
    {l : List SlotId} (hl : id ∉ l) : l.filter (b'.isUpTo place) = l.filter (b.isUpTo place) := by
  apply List.filter_congr
  intro x hx
  have hne : x ≠ id := fun heq => hl (heq ▸ hx)
  rw [isUpTo, isUpTo, h.place, if_neg hne]

/-- The last slot up to a position, with the definition put in: readers of the predecessor from `p`
on are now within reach of the new definition. -/
theorem lastUpTo?_eq (h : Insertion b b' id name p l₁ before l₂) (n : String) (q : Position) :
    b'.lastUpTo? n q =
      if n = name ∧ p ≤ q ∧ b.lastUpTo? n q = some before then some id
      else b.lastUpTo? n q := by
  by_cases hn : n = name
  · subst hn
    have hnodup := h.nodup_with
    have hnot := h.not_mem n
    rw [h.without, List.append_cons, List.mem_append, not_or] at hnot
    obtain ⟨hnot₁, hnot₂⟩ := hnot
    have hold : b.lastUpTo? n q = ((l₂.filter (b.isUpTo (.placed q))).getLast?).or
        (((l₁ ++ [before]).filter (b.isUpTo (.placed q))).getLast?) := by
      rw [lastUpTo?, h.without, List.append_cons, List.filter_append, List.getLast?_append]
    have hnew : b'.lastUpTo? n q
        = ((l₂.filter (b.isUpTo (.placed q))).getLast?).or
          ((([id].filter (b'.isUpTo (.placed q))).getLast?).or
            (((l₁ ++ [before]).filter (b.isUpTo (.placed q))).getLast?)) := by
      rw [lastUpTo?, h.slotsOf, if_pos rfl, List.append_cons, List.append_cons,
        List.filter_append, List.filter_append, List.getLast?_append, List.getLast?_append,
        h.filter_isUpTo _ hnot₂, h.filter_isUpTo _ hnot₁]
    have hid : b'.isUpTo (.placed q) id = decide (p ≤ q) := by
      rw [isUpTo, h.place, if_pos rfl]
      rfl
    by_cases hpq : p ≤ q
    · -- all slots before the new one are up to `q` as well
      have hall : (l₁ ++ [before]).filter (b.isUpTo (.placed q)) = l₁ ++ [before] := by
        rw [List.filter_eq_self]
        intro x hx
        obtain ⟨r, hr, hrp⟩ := isUpTo_eq_true_iff.mp (h.upTo x hx)
        exact isUpTo_eq_true_iff.mpr ⟨r, hr, SlotPlace.le_trans hrp hpq⟩
      rw [hall, List.getLast?_concat] at hold hnew
      rw [List.filter_cons_of_pos (by rw [hid]; exact decide_eq_true hpq)] at hnew
      cases hl₂ : (l₂.filter (b.isUpTo (.placed q))).getLast? with
      | none =>
        rw [hl₂] at hold hnew
        rw [hnew, if_pos ⟨rfl, hpq, hold⟩]
        rfl
      | some y =>
        rw [hl₂] at hold hnew
        have hne : ¬(n = n ∧ p ≤ q ∧ b.lastUpTo? n q = some before) := by
          rintro ⟨-, -, heq⟩
          have hy : y ∈ l₂ := List.mem_of_mem_filter (List.mem_of_getLast? hl₂)
          rw [hold, Option.some_or, Option.some.injEq] at heq
          rw [heq] at hy
          have := (List.nodup_append.mp hnodup).2.1
          simp [hy] at this
        rw [hnew, if_neg hne, hold]
        rfl
    · rw [List.filter_cons_of_neg (by rw [hid]; simpa using hpq)] at hnew
      rw [if_neg (fun h => hpq h.2.1), hnew, hold]
      rfl
  · rw [if_neg (fun h => hn h.1), lastUpTo?, h.slotsOf, if_neg hn,
      h.filter_isUpTo _ (h.not_mem n), lastUpTo?]

/-- The last slot up to a position, with the definition taken out again: its readers are within
reach of its predecessor. -/
theorem lastUpTo?_without (h : Insertion b b' id name p l₁ before l₂) (n : String)
    (q : Position) :
    b.lastUpTo? n q = if b'.lastUpTo? n q = some id then some before else b'.lastUpTo? n q := by
  rw [h.lastUpTo?_eq]
  by_cases hc : n = name ∧ p ≤ q ∧ b.lastUpTo? n q = some before
  · simp only [if_pos hc]
    exact hc.2.2
  · simp only [if_neg hc]
    have hne : b.lastUpTo? n q ≠ some id := fun heq => h.not_mem n (mem_of_lastUpTo? heq)
    rw [if_neg hne]

/-- Positions do not decrease with the definition put in, if the slots behind it are after it. -/
theorem pairwise_le (h : Insertion b b' id name p l₁ before l₂)
    (hafter : ∀ y ∈ l₂, ∀ q, b.place? y = some q → .placed p ≤ q)
    (hb : ∀ n : String, (b.slotsOf n).Pairwise fun x y =>
      ∀ p q, b.place? x = some p → b.place? y = some q → p ≤ q) (n : String) :
    (b'.slotsOf n).Pairwise fun x y =>
      ∀ p q, b'.place? x = some p → b'.place? y = some q → p ≤ q := by
  have hkeep : ∀ l : List SlotId, id ∉ l →
      (l.Pairwise fun x y => ∀ p q, b.place? x = some p → b.place? y = some q → p ≤ q) →
      l.Pairwise fun x y => ∀ p q, b'.place? x = some p → b'.place? y = some q → p ≤ q := by
    intro l hl hp
    refine hp.imp_of_mem ?_
    intro x y hx hy hxy
    rw [h.place, h.place, if_neg (fun heq : x = id => hl (heq ▸ hx)),
      if_neg (fun heq : y = id => hl (heq ▸ hy))]
    exact hxy
  rw [h.slotsOf]
  by_cases hn : n = name
  · rw [if_pos hn]
    have hordered := hb name
    have hnot := h.not_mem name
    rw [h.without, List.append_cons] at hordered hnot
    rw [List.append_cons, List.pairwise_append, List.pairwise_cons]
    rw [List.pairwise_append] at hordered
    rw [List.mem_append, not_or] at hnot
    refine ⟨hkeep _ hnot.1 hordered.1, ⟨?_, hkeep _ hnot.2 hordered.2.1⟩, ?_⟩
    · intro y hy q r hq hr
      rw [h.place, if_pos rfl, Option.some.injEq] at hq
      rw [h.place, if_neg (fun heq : y = id => hnot.2 (heq ▸ hy))] at hr
      exact hq ▸ hafter y hy r hr
    · intro x hx y hy q r hq hr
      rw [h.place, if_neg (fun heq : x = id => hnot.1 (heq ▸ hx))] at hq
      obtain ⟨q', hq', hqp⟩ := isUpTo_eq_true_iff.mp (h.upTo x hx)
      rw [hq, Option.some.injEq] at hq'
      subst hq'
      rcases List.mem_cons.mp hy with rfl | hy
      · rw [h.place, if_pos rfl, Option.some.injEq] at hr
        exact hr ▸ hqp
      · rw [h.place, if_neg (fun heq : y = id => hnot.2 (heq ▸ hy))] at hr
        exact hordered.2.2 x hx y hy q r hq hr
  · rw [if_neg hn]
    exact hkeep _ (h.not_mem n) (hb n)

end Insertion

end Bindings

end MathCanvas
