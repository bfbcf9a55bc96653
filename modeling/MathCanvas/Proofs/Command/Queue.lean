import MathCanvas.Command.Queue
import Mathlib.Data.List.Basic

/-!
# What a queue of commands holds

`DispatchQueue.find?` tells what is pending after each operation, and `DispatchQueue.nextFrom_spec`
which command is taken next: the first one of the outbox that is still pending.
-/

namespace MathCanvas

namespace DispatchQueue

variable {κ α : Type} [DecidableEq κ] {q : DispatchQueue κ α}

theorem find?_cancel (q : DispatchQueue κ α) (id id' : κ) :
    (q.cancel id).find? id' = if id' = id then none else q.find? id' := by
  unfold find? cancel
  induction q.pending with
  | nil => simp
  | cons entry rest ih =>
    obtain ⟨k, v⟩ := entry
    by_cases hk : k = id
    · subst hk
      rw [List.filter_cons_of_neg (by simp), ih]
      by_cases hid : id' = k
      · rw [if_pos hid, if_pos hid]
      · rw [if_neg hid, if_neg hid, List.lookup_cons, beq_eq_false_iff_ne.mpr hid]
    · rw [List.filter_cons_of_pos (by simpa using hk), List.lookup_cons, List.lookup_cons, ih]
      by_cases hid : id' = k
      · subst hid
        simp [hk]
      · simp only [beq_eq_false_iff_ne.mpr hid]

theorem find?_dispatch (q : DispatchQueue κ α) (id id' : κ) (command : α) :
    (q.dispatch id command).find? id' = if id' = id then some command else q.find? id' := by
  have hcancel := q.find?_cancel id id'
  unfold find? at hcancel ⊢
  unfold dispatch
  rw [List.lookup_cons, hcancel]
  by_cases hid : id' = id
  · simp [hid]
  · simp only [beq_eq_false_iff_ne.mpr hid, if_neg hid]

/-- A command that is taken from the outbox stays pending. -/
theorem find?_next (q : DispatchQueue κ α) (x : κ) : q.next.2.find? x = q.find? x := rfl

/-! ### The ids that are pending -/

/-- The ids of the pending commands. -/
def ids (q : DispatchQueue κ α) : List κ := q.pending.map Prod.fst

theorem ids_cancel (q : DispatchQueue κ α) (id : κ) : (q.cancel id).ids = q.ids.filter (· != id) := by
  rw [ids, cancel, ids, List.filter_map]
  rfl

theorem nodup_ids_cancel (h : q.ids.Nodup) (id : κ) : (q.cancel id).ids.Nodup := by
  rw [ids_cancel]
  exact h.filter _

theorem nodup_ids_dispatch (h : q.ids.Nodup) (id : κ) (command : α) :
    (q.dispatch id command).ids.Nodup := by
  have hout : id ∉ (q.cancel id).ids := by simp [ids_cancel]
  exact List.nodup_cons.mpr ⟨hout, nodup_ids_cancel h id⟩

/-! ### The outbox -/

/-- Either the first pending command of the outbox is taken and those before it are left out, or
none of the outbox is pending. -/
theorem nextFrom_spec (q : DispatchQueue κ α) (outbox : List κ) :
    (∃ skipped id command rest, outbox = skipped ++ id :: rest ∧
      (∀ x ∈ skipped, q.find? x = none) ∧ q.find? id = some command ∧
      q.nextFrom outbox = (some (id, command), rest)) ∨
    (∀ x ∈ outbox, q.find? x = none) ∧ q.nextFrom outbox = (none, []) := by
  induction outbox with
  | nil => exact .inr ⟨by simp, rfl⟩
  | cons id rest ih =>
    cases hid : q.find? id with
    | some command =>
      exact .inl ⟨[], id, command, rest, rfl, by simp, hid, by rw [nextFrom, hid]⟩
    | none =>
      have hnext : q.nextFrom (id :: rest) = q.nextFrom rest := by rw [nextFrom, hid]
      rw [hnext]
      rcases ih with ⟨skipped, id', command, rest', rfl, hskipped, hid', heq⟩ | ⟨hnone, heq⟩
      · refine .inl ⟨id :: skipped, id', command, rest', rfl, ?_, hid', heq⟩
        exact List.forall_mem_cons.mpr ⟨hid, hskipped⟩
      · exact .inr ⟨List.forall_mem_cons.mpr ⟨hid, hnone⟩, heq⟩

end DispatchQueue

end MathCanvas
