import MathCanvas.Command.Session
import MathCanvas.Proofs.Command.Queue
import Mathlib.Algebra.BigOperators.Group.List.Basic
import Mathlib.Algebra.Ring.Nat

/-!
# Sessions come to an end

A command takes its callback with it when it is answered, so that no call leaves more work behind
than it was itself (`QueueSession.work_perform`). Hence `QueueSession.settle` does everything that
is on the agenda.
-/

namespace MathCanvas

namespace QueueSession

variable {s : QueueSession}

theorem work_eq (s : QueueSession) : s.work = (s.agenda.map QueueTask.work).sum +
    (s.queue.pending.map fun entry => 2 * QueueCall.sizeAll entry.2.onAnswer).sum := by
  rw [work, List.sum_eq_foldr, List.sum_eq_foldr, List.foldr_map, List.foldr_map]

theorem sum_work_map_call (calls : List QueueCall) :
    ((calls.map QueueTask.call).map QueueTask.work).sum = 2 * QueueCall.sizeAll calls := by
  induction calls with
  | nil => simp [QueueCall.sizeAll]
  | cons call rest ih =>
    simp only [List.map_cons, List.sum_cons, ih, QueueTask.work, QueueCall.sizeAll]
    omega

/-- A command that is taken out leaves no more work behind than it takes with it. -/
theorem sum_pending_cancel (q : DispatchQueue String QueuedCommand) (id : String) :
    ((q.cancel id).pending.map fun entry => 2 * QueueCall.sizeAll entry.2.onAnswer).sum +
      ((q.find? id).map fun command => 2 * QueueCall.sizeAll command.onAnswer).getD 0 ≤
    (q.pending.map fun entry => 2 * QueueCall.sizeAll entry.2.onAnswer).sum := by
  obtain ⟨outbox, pending⟩ := q
  simp only [DispatchQueue.cancel, DispatchQueue.find?]
  induction pending with
  | nil => simp
  | cons entry rest ih =>
    obtain ⟨x, command⟩ := entry
    rw [List.lookup_cons]
    by_cases hx : id = x
    · subst hx
      have hrest : ((rest.filter fun entry => entry.1 != id).map fun entry =>
          2 * QueueCall.sizeAll entry.2.onAnswer).sum ≤
          (rest.map fun entry => 2 * QueueCall.sizeAll entry.2.onAnswer).sum :=
        Nat.le_trans (Nat.le_add_right _ _) ih
      rw [List.filter_cons_of_neg (by simp)]
      simp only [beq_self_eq_true, Option.map_some, Option.getD_some, List.map_cons, List.sum_cons]
      omega
    · rw [List.filter_cons_of_pos (by simpa using Ne.symm hx), List.map_cons, List.map_cons,
        List.sum_cons, List.sum_cons, show (id == x) = false by simpa using hx]
      simp only
      omega

theorem work_receive_le (s : QueueSession) (id : String) (outcome : Outcome) :
    (s.receive id outcome).2.work ≤ s.work := by
  have hcancel := sum_pending_cancel s.queue id
  rw [receive, DispatchQueue.take]
  cases hid : s.queue.find? id with
  | none => exact Nat.le_refl _
  | some command =>
    rw [hid] at hcancel
    simp only [work_eq, List.map_append, List.sum_append, sum_work_map_call, Option.map_some,
      Option.getD_some] at hcancel ⊢
    omega

/-- A call puts on the agenda at most the work that it had itself. -/
theorem work_perform (s : QueueSession) (call : QueueCall) :
    (s.perform call).2.work + 2 ≤ s.work + 2 * call.size := by
  have hsize : 1 ≤ call.size := by
    cases call <;> simp only [QueueCall.size] <;> omega
  cases call with
  | dispatch id inputs expression onAnswer =>
    have hcancel := sum_pending_cancel s.queue id
    simp only [perform, DispatchQueue.dispatch, work_eq, List.map_cons, List.sum_cons,
      QueueCall.size]
    omega
  | cancel id =>
    have hcancel := sum_pending_cancel s.queue id
    simp only [perform, work_eq]
    omega
  | next => simp only [perform, DispatchQueue.next, work_eq]; omega
  | receive id outcome =>
    have hreceive := work_receive_le s id outcome
    simp only [perform]
    omega
  | receiveText text =>
    simp only [perform]
    split
    · rename_i reply _
      have hreceive := work_receive_le s reply.id reply.outcome
      omega
    · exact Nat.add_le_add_left (Nat.mul_le_mul_left 2 hsize) _
  | isPending id | unreadable error => simp only [perform]; omega

theorem work_step_lt (h : s.agenda ≠ []) : s.step.work < s.work := by
  obtain ⟨queue, agenda, history⟩ := s
  match agenda, h with
  | .record result :: rest, _ => simp [step, work_eq, QueueTask.work]
  | .call call :: rest, _ =>
    have hperform := work_perform ⟨queue, [], history⟩ call
    simp only [step, work_eq, List.map_append, List.sum_append, List.map_cons, List.sum_cons,
      List.map_nil, List.sum_nil, QueueTask.work] at hperform ⊢
    omega

theorem step_of_nil (h : s.agenda = []) : s.step = s := by
  obtain ⟨queue, agenda, history⟩ := s
  cases h
  rfl

theorem agenda_repeat_step (n : Nat) (s : QueueSession) :
    (n.repeat step s).agenda = [] ∨ (n.repeat step s).work + n ≤ s.work := by
  induction n with
  | zero => exact .inr (Nat.le_refl _)
  | succ n ih =>
    rw [Nat.repeat]
    by_cases hnil : (n.repeat step s).agenda = []
    · exact .inl (by rw [step_of_nil hnil, hnil])
    · have hlt := work_step_lt hnil
      have hle := ih.resolve_left hnil
      exact .inr (by omega)

/-- Everything on the agenda gets done. -/
theorem agenda_settle (s : QueueSession) : s.settle.agenda = [] := by
  rcases agenda_repeat_step s.work s with h | h
  · exact h
  · -- no work is left
    by_contra hne
    have hlt := work_step_lt hne
    rw [settle] at hlt
    omega

end QueueSession

end MathCanvas
