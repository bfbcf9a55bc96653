import MathCanvas.Expr.Names
import MathCanvas.Proofs.Expr.Results

/-!
# Names and results

The names that an expression reads and writes are those of its blanked form: the results along the
chain are not read, and what is written there are the targets of the assignments.
-/

namespace MathCanvas

/-- The names that a form on the chain defines. -/
def EvaluableForm.names : EvaluableForm → List String
  | .assign target _ => target.targets
  | .inline .. => []

namespace Expr

variable {a b : Expr}

/-- Only the value of an assignment and the operand of an inline evaluation are read. -/
theorem reads_blanked (e : Expr) : e.blanked.reads = e.reads := by
  induction e using chain_induction with
  | assign target body ih =>
    rw [blanked_assign]
    simp [reads, readsOfSecond, ih]
  | equal operand result ih =>
    rw [blanked_equal]
    simp [reads, readsOfFirst, ih]
  | evaluate operand directive result ih =>
    rw [blanked_evaluate]
    simp [reads, readsOfFirst, ih]
  | inert e hchain hblanked => rw [hblanked]

theorem readNames_congr (h : a.blanked = b.blanked) : a.readNames = b.readNames := by
  rw [readNames, readNames, ← reads_blanked a, ← reads_blanked b, h]

/-- The targets stand on the chain, apart from operands and results. -/
theorem writtenNames_eq_skeleton (e : Expr) :
    e.writtenNames = sortNames (e.skeleton.flatMap fun entry => entry.2.names) := by
  rw [writtenNames, skeleton, List.flatMap_map]
  congr 2
  funext entry
  obtain ⟨path, form⟩ := entry
  cases form <;> rfl

theorem writtenNames_congr (h : a.blanked = b.blanked) : a.writtenNames = b.writtenNames := by
  rw [writtenNames_eq_skeleton, writtenNames_eq_skeleton, skeleton_congr h]

end Expr

end MathCanvas
