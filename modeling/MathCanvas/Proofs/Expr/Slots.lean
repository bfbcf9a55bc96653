import MathCanvas.Proofs.Expr.Names
import MathCanvas.Proofs.Expr.Paths

/-!
# The result slots of an expression

The result slots along a chain are places of the expression (`Expr.exists_at?_of_mem_slots`) that do
not lie within each other (`Expr.eq_of_prefix_slots`): what is put into one of them is found there
(`Expr.at?_replaceAt_self`) and the others keep what they hold (`Expr.at?_replaceAt_slot`).
-/

namespace MathCanvas

namespace Expr

/-! ### The slots, form by form -/

theorem slots_eq (e : Expr) : e.slots =
    e.chain.filterMap fun entry => entry.2.resultIndex?.map fun i => entry.1 ++ [i] := by
  rw [slots, skeleton, List.filterMap_map]
  simp only [Function.comp_def, EvaluableForm.resultIndex?_blanked]

/-- Arguments of the forms of an operand, seen from the application. -/
theorem filterMap_chain_map (index? : EvaluableForm → Option Nat) (i : Nat)
    (chain : List (Path × EvaluableForm)) :
    ((chain.map fun entry => (i :: entry.1, entry.2)).filterMap
        fun entry => (index? entry.2).map fun j => entry.1 ++ [j]) =
      (chain.filterMap fun entry => (index? entry.2).map fun j => entry.1 ++ [j]).map (i :: ·) := by
  rw [List.filterMap_map, List.map_filterMap]
  congr 1
  funext entry
  simp [Function.comp_def]

theorem slots_assign (target body : Expr) :
    (app "Assign" [target, body]).slots = body.slots.map (1 :: ·) := by
  rw [slots_eq, slots_eq, chain_assign, List.filterMap_cons_none rfl, filterMap_chain_map]

theorem slots_equal (operand result : Expr) :
    (app "Equal" [operand, result]).slots = [1] :: operand.slots.map (0 :: ·) := by
  rw [slots_eq, slots_eq, chain_equal, List.filterMap_cons, filterMap_chain_map]
  rfl

theorem slots_evaluate (operand directive result : Expr) :
    (app "Evaluate" [operand, directive, result]).slots = [2] :: operand.slots.map (0 :: ·) := by
  rw [slots_eq, slots_eq, chain_evaluate, List.filterMap_cons, filterMap_chain_map]
  rfl

theorem slots_inert {e : Expr} (hchain : e.chain = []) : e.slots = [] := by
  rw [slots_eq, hchain]
  rfl

theorem slots_congr {a b : Expr} (h : a.blanked = b.blanked) : a.slots = b.slots := by
  rw [slots, slots, skeleton_congr h]

theorem exists_at?_of_mem_slots {e : Expr} {slot : Path} (hslot : slot ∈ e.slots) :
    ∃ content, e.at? slot = some content := by
  induction e using chain_induction generalizing slot with
  | assign target body ih =>
    rw [slots_assign] at hslot
    obtain ⟨inner, hinner, rfl⟩ := List.mem_map.mp hslot
    exact ih hinner
  | equal operand result ih =>
    rw [slots_equal] at hslot
    rcases List.mem_cons.mp hslot with rfl | hslot
    · exact ⟨result, by cases result <;> rfl⟩
    · obtain ⟨inner, hinner, rfl⟩ := List.mem_map.mp hslot
      exact ih hinner
  | evaluate operand directive result ih =>
    rw [slots_evaluate] at hslot
    rcases List.mem_cons.mp hslot with rfl | hslot
    · exact ⟨result, by cases result <;> rfl⟩
    · obtain ⟨inner, hinner, rfl⟩ := List.mem_map.mp hslot
      exact ih hinner
  | inert e hchain _ =>
    rw [slots_inert hchain] at hslot
    cases hslot

/-- No slot lies within another. -/
theorem eq_of_prefix_slots {e : Expr} {slot other : Path} (hslot : slot ∈ e.slots)
    (hother : other ∈ e.slots) (hshorter : slot <+: other) : slot = other := by
  have hinline : ∀ {head : String} {args : List Expr} {operand : Expr} {k : Nat}, k ≠ 0 →
      (app head args).slots = [k] :: operand.slots.map (0 :: ·) →
      (∀ {slot other : Path}, slot ∈ operand.slots → other ∈ operand.slots → slot <+: other →
        slot = other) →
      ∀ {slot other : Path}, slot ∈ (app head args).slots → other ∈ (app head args).slots →
        slot <+: other → slot = other := by
    intro head args operand k hk hslots ih slot other hslot hother hshorter
    rw [hslots] at hslot hother
    rcases List.mem_cons.mp hslot with rfl | hslot <;>
      rcases List.mem_cons.mp hother with rfl | hother
    · rfl
    · obtain ⟨inner, -, rfl⟩ := List.mem_map.mp hother
      exact absurd (List.cons_prefix_cons.mp hshorter).1 hk
    · obtain ⟨inner, -, rfl⟩ := List.mem_map.mp hslot
      exact absurd (List.cons_prefix_cons.mp hshorter).1.symm hk
    · obtain ⟨inner, hinner, rfl⟩ := List.mem_map.mp hslot
      obtain ⟨inner', hinner', rfl⟩ := List.mem_map.mp hother
      rw [ih hinner hinner' (List.cons_prefix_cons.mp hshorter).2]
  induction e using chain_induction generalizing slot other with
  | assign target body ih =>
    rw [slots_assign] at hslot hother
    obtain ⟨inner, hinner, rfl⟩ := List.mem_map.mp hslot
    obtain ⟨inner', hinner', rfl⟩ := List.mem_map.mp hother
    rw [ih hinner hinner' (List.cons_prefix_cons.mp hshorter).2]
  | equal operand result ih =>
    exact hinline Nat.one_ne_zero (slots_equal operand result) ih hslot hother hshorter
  | evaluate operand directive result ih =>
    exact hinline (Nat.succ_ne_zero 1) (slots_evaluate operand directive result) ih hslot hother
      hshorter
  | inert e hchain _ =>
    rw [slots_inert hchain] at hslot
    cases hslot

/-- The other slots keep what they hold. -/
theorem at?_replaceAt_slot {e : Expr} {slot other : Path} (hslot : slot ∈ e.slots)
    (hother : other ∈ e.slots) (hne : slot ≠ other) (new : Expr) :
    (e.replaceAt slot new).at? other = e.at? other :=
  at?_replaceAt_of_apart (fun h => hne (eq_of_prefix_slots hslot hother h))
    (fun h => hne (eq_of_prefix_slots hother hslot h).symm) new

end Expr

end MathCanvas
