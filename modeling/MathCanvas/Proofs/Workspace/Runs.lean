import MathCanvas.Proofs.Workspace.Resolution
import MathCanvas.Proofs.Workspace.Turn

/-!
# Runs of a workspace

A `Workspace.Run` goes from one workspace to another: the client calls operations when nothing is in
progress, and the tasks on the agenda are taken one by one. A condition says when the next task may
be taken, so that a run can be one in which something never happens. The events of the operations
that are over are kept beside it.

An operation that is called is put on the agenda and taken from there like any other task, so that
the calls of the client and those of reactions are of one kind.
-/

namespace MathCanvas

namespace Workspace

variable {w w₀ : Workspace} {may : Workspace → Prop} {past : List Event} {backend : Backend}

/-- The client calls an operation. -/
def call (w : Workspace) (op : Op) : Workspace := { w with history := [], agenda := [.operate op] }

/-- Runs in which tasks are taken only where `may` allows it. -/
inductive Run (may : Workspace → Prop) (w₀ : Workspace) : List Event → Workspace → Prop
  | refl : Run may w₀ [] w₀
  | call {past : List Event} {w : Workspace} (op : Op) : Run may w₀ past w → w.agenda = [] →
      Run may w₀ (past ++ w.history) (w.call op)
  | step {past : List Event} {w : Workspace} : Run may w₀ past w → may w → Run may w₀ past w.step

theorem step_of_agenda {task : Task} {rest : List Task} (hagenda : w.agenda = task :: rest) :
    w.step = (({ w with agenda := rest } : Workspace).perform task).sweep := by
  rw [Workspace.step, hagenda]

/-- The first step after a call begins the operation. -/
theorem step_call (hquiet : w.agenda = []) (op : Op) :
    (w.call op).step = ({ w with history := [] }.operate op).2.sweep := by
  have hsame : ({ w with history := [], agenda := [] } : Workspace) = { w with history := [] } := by
    rw [← hquiet]
  show ({ w with history := [], agenda := [] } : Workspace).operate op |>.2.sweep = _
  rw [hsame]

/-- An operation that is called leaves the imports as they are. -/
theorem Ready.call (h : w.Ready) (hquiet : w.agenda = []) (op : Op) : (w.call op).Ready := by
  cases h with
  | resting hcoherent =>
    have hempty : ({ w with history := [], agenda := [] } : Workspace).Coherent
        fun _ _ => False := hcoherent.of_same rfl rfl rfl rfl hquiet.symm
    have hsafe : (Task.operate op).Safe w.tree := trivial
    exact .resting (hempty.push_one hsafe)
  | telling hagenda =>
    rw [hagenda] at hquiet
    cases hquiet

theorem settle_succ {task : Task} {rest : List Task} (hagenda : w.agenda = task :: rest) (n : Nat) :
    w.settle (n + 1) = w.step.settle n := by
  rw [Workspace.settle.eq_def]
  simp only [hagenda]

theorem settle_of_quiet (h : w.agenda = []) (limit : Nat) : w.settle limit = w := by
  rw [settle.eq_def]
  cases limit with
  | zero => rfl
  | succ limit => simp only [h]

theorem step_of_quiet (h : w.agenda = []) : w.step = w := by rw [step, h]

/-- The next step is taken at the end, too. -/
theorem settle_succ_eq_step (w : Workspace) (n : Nat) : w.settle (n + 1) = (w.settle n).step := by
  induction n generalizing w with
  | zero =>
    cases hagenda : w.agenda with
    | nil => rw [settle_of_quiet hagenda, settle, step_of_quiet hagenda]
    | cons task rest => rw [settle_succ hagenda, settle, settle]
  | succ n ih =>
    cases hagenda : w.agenda with
    | nil => rw [settle_of_quiet hagenda, settle_of_quiet hagenda, step_of_quiet hagenda]
    | cons task rest => rw [settle_succ hagenda, ih, settle_succ hagenda]

/-- Nothing happens when nothing is in progress. -/
theorem settle_of_le {n k : Nat} (hdone : (w.settle n).agenda = []) (hle : n ≤ k) :
    w.settle k = w.settle n := by
  induction k, hle using Nat.le_induction with
  | base => rfl
  | succ k _ ih => rw [settle_succ_eq_step, ih, step_of_quiet hdone]

theorem settle_eq_of_done {n k : Nat} (hn : (w.settle n).agenda = [])
    (hk : (w.settle k).agenda = []) : w.settle n = w.settle k := by
  rcases Nat.le_total n k with hle | hle
  · exact (settle_of_le hn hle).symm
  · exact settle_of_le hk hle

/-- Tasks that are put in front of others are done before these. -/
theorem exists_settle_of_front {P : Nat → List Task → Prop} {base soon : List Task} {n k : Nat}
    (hbase : base ≠ []) (hagenda : ∀ {k soon}, P k soon → (w.settle k).agenda = soon ++ base)
    (hstep : ∀ {k task soon}, P k (task :: soon) → ∃ tasks, P (k + 1) (tasks ++ soon))
    (hdone : (w.settle n).agenda = []) (h : P k soon) : ∃ m, k ≤ m ∧ P m [] := by
  obtain ⟨d, hd⟩ : ∃ d, n ≤ k + d := ⟨n, Nat.le_add_left n k⟩
  induction d generalizing k soon with
  | zero =>
    have hempty := hagenda h
    rw [settle_of_le hdone (by omega : n ≤ k), hdone] at hempty
    exact absurd (List.append_eq_nil_iff.mp hempty.symm).2 hbase
  | succ d ih =>
    cases soon with
    | nil => exact ⟨k, Nat.le_refl k, h⟩
    | cons task soon =>
      obtain ⟨tasks, hnext⟩ := hstep h
      obtain ⟨m, hm, hend⟩ := ih hnext (by omega)
      exact ⟨m, Nat.le_of_succ_le hm, hend⟩

theorem apply_eq_settle (hquiet : w.agenda = []) (op : Op) :
    (w.apply op).2 = (w.call op).settle (taskLimit + 1) := by
  rw [settle_succ (rfl : (w.call op).agenda = [.operate op]), step_call hquiet]
  rfl

theorem Run.mono {may' : Workspace → Prop} (h : Run may w₀ past w) (hmay : ∀ w, may w → may' w) :
    Run may' w₀ past w := by
  induction h with
  | refl => exact .refl
  | call op _ hquiet ih => exact .call op ih hquiet
  | step _ hw ih => exact .step ih (hmay _ hw)

/-- What holds at the start of a run, and is kept by calls and steps, holds at its end. -/
theorem Run.invariant {P : List Event → Workspace → Prop} (h : Run may w₀ past w) (start : P [] w₀)
    (call : ∀ past w op, P past w → w.agenda = [] → P (past ++ w.history) (w.call op))
    (step : ∀ past w task rest, P past w → may w → w.agenda = task :: rest →
      P past (({ w with agenda := rest } : Workspace).perform task).sweep) : P past w := by
  induction h with
  | refl => exact start
  | call op _ hquiet ih => exact call _ _ op ih hquiet
  | @step past w _ hmay ih =>
    cases hagenda : w.agenda with
    | nil =>
      rw [Workspace.step, hagenda]
      exact ih
    | cons task rest =>
      rw [step_of_agenda hagenda]
      exact step past w task rest ih hmay hagenda

/-- The steps of a run may be taken one after the other. -/
theorem Run.settle (h : Run may w₀ past w) {limit : Nat}
    (hmay : ∀ n < limit, may (w.settle n)) : Run may w₀ past (w.settle limit) := by
  induction limit generalizing w with
  | zero => rwa [Workspace.settle]
  | succ limit ih =>
    have hfirst : may w := by
      have hzero := hmay 0 (Nat.succ_pos limit)
      rwa [Workspace.settle] at hzero
    cases hagenda : w.agenda with
    | nil =>
      rw [Workspace.settle.eq_def]
      simp only [hagenda]
      exact h
    | cons task rest =>
      rw [settle_succ hagenda]
      refine ih (h.step hfirst) fun n hn => ?_
      rw [← settle_succ hagenda]
      exact hmay (n + 1) (Nat.succ_lt_succ hn)

/-- What can be reached can be reached by a run. -/
theorem Reached.exists_run (h : Reached backend w) :
    ∃ past, Run (fun _ => True) { backend } past w := by
  induction h with
  | start => exact ⟨[], .refl⟩
  | @begin w op _ hquiet ih =>
    obtain ⟨past, hrun⟩ := ih
    exact ⟨_, step_call hquiet op ▸ (hrun.call op hquiet).step trivial⟩
  | step _ ih =>
    obtain ⟨past, hrun⟩ := ih
    exact ⟨past, hrun.step trivial⟩

/-! ### Numbers of cells -/

theorem perform_numbered (h : ∀ {c cell}, w.cell? c = some cell → c < w.nextCell) (task : Task)
    {c : CellId} {cell : Cell} (hcell : (w.perform task).cell? c = some cell) :
    c < (w.perform task).nextCell := by
  by_cases hmakes : w.Makes c task
  · obtain ⟨rfl, position, expression, scope, automatic, rfl⟩ := hmakes
    obtain ⟨hnext, -⟩ := w.operate_newCell position expression scope automatic
    exact hnext ▸ Nat.lt_succ_self _
  · obtain ⟨hle, hcells⟩ := (perform_turn hmakes).numbered
    have hfound : w.cell? c ≠ none := hcells (by rw [hcell]; exact Option.some_ne_none _)
    obtain ⟨before, hbefore⟩ := Option.ne_none_iff_exists'.mp hfound
    exact (h hbefore).trans_le hle

theorem sweep_numbered (h : ∀ {c cell}, w.cell? c = some cell → c < w.nextCell) {c : CellId}
    {cell : Cell} (hcell : w.sweep.cell? c = some cell) : c < w.sweep.nextCell := by
  obtain ⟨cells, tree, heq, hcells⟩ := w.exists_sweep_eq
  rw [heq] at hcell ⊢
  exact h (hcells hcell)

/-- Cells are numbered in the order in which they are made. -/
theorem Run.lt_nextCell (h : Run may { backend } past w) {c : CellId} {cell : Cell}
    (hcell : w.cell? c = some cell) : c < w.nextCell := by
  refine h.invariant (P := fun _ w => ∀ c cell, w.cell? c = some cell → c < w.nextCell) ?_ ?_ ?_
    c cell hcell
  · intro c cell hcell
    simp [cell?] at hcell
  · exact fun _ _ _ h _ => h
  · intro past w task rest h _ _ c cell hcell
    have hpopped : ∀ {c cell}, ({ w with agenda := rest } : Workspace).cell? c = some cell →
        c < w.nextCell := fun hfound => h _ _ hfound
    exact sweep_numbered (perform_numbered hpopped task) hcell

end Workspace

end MathCanvas
