import MathCanvas.Proofs.Expr.Results

/-!
# Expressions without a plan

An expression has no plan if it is inert (`Plan.ofExpr_eq_none_iff`), or if an assignment on its
chain does not name exactly one target (`Plan.exists_ofExpr_eq_error_iff`). Neither depends on the
results in it.
-/

namespace MathCanvas

namespace Plan

variable {e a b : Expr}

/-- Only the target of an assignment can be wrong. -/
theorem exists_stageOf_eq_error_iff {path : Path} {form : EvaluableForm} :
    (∃ error, stageOf path form = .error error) ↔
      ∃ target body, form = .assign target body ∧ target.targets.length ≠ 1 := by
  cases form with
  | inline mode operand result => simp [stageOf]
  | assign target body =>
    unfold stageOf singleTarget
    rcases htargets : target.targets with _ | ⟨name, _ | ⟨other, rest⟩⟩ <;>
      simp [htargets, Except.map]

/-- A chain has no stages exactly if the target of an assignment on it is wrong. -/
theorem exists_stagesOf_eq_error_iff {chain : List (Path × EvaluableForm)} :
    (∃ error, stagesOf chain = .error error) ↔ ∃ path target body,
      (path, EvaluableForm.assign target body) ∈ chain ∧ target.targets.length ≠ 1 := by
  induction chain with
  | nil => simp [stagesOf]
  | cons entry rest ih =>
    obtain ⟨path, form⟩ := entry
    have hfirst : (∃ error, stageOf path form = .error error) ↔
        ∃ target body, form = .assign target body ∧ target.targets.length ≠ 1 :=
      exists_stageOf_eq_error_iff
    have hsplit : (∃ error, stagesOf ((path, form) :: rest) = .error error) ↔
        (∃ error, stageOf path form = .error error) ∨ ∃ error, stagesOf rest = .error error := by
      cases hstage : stageOf path form with
      | error error => simp [stagesOf, hstage]
      | ok stage =>
        cases hrest : stagesOf rest with
        | error error => simp [stagesOf, hstage, hrest, Except.map]
        | ok stages => simp [stagesOf, hstage, hrest, Except.map]
    rw [hsplit, hfirst, ih]
    constructor
    · rintro (⟨target, body, rfl, htarget⟩ | ⟨p, target, body, hmem, htarget⟩)
      · exact ⟨path, target, body, List.mem_cons_self, htarget⟩
      · exact ⟨p, target, body, List.mem_cons_of_mem _ hmem, htarget⟩
    · rintro ⟨p, target, body, hmem, htarget⟩
      rcases List.mem_cons.mp hmem with heq | hmem
      · cases heq
        exact .inl ⟨target, body, rfl, htarget⟩
      · exact .inr ⟨p, target, body, hmem, htarget⟩

/-- The error is that of the chain, taken from the inside out. -/
theorem ofExpr_eq_error_iff {error : CellError} :
    ofExpr e = .error error ↔ stagesOf e.chain.reverse = .error error := by
  unfold ofExpr
  split
  · rename_i hempty
    rw [List.isEmpty_iff.mp hempty]
    simp [stagesOf]
  · cases stagesOf e.chain.reverse <;> simp [Except.map]

/-- An expression has an error exactly if an assignment on its chain does not name exactly one
target. -/
theorem exists_ofExpr_eq_error_iff : (∃ error, ofExpr e = .error error) ↔ ∃ path target body,
    (path, EvaluableForm.assign target body) ∈ e.chain ∧ target.targets.length ≠ 1 := by
  simp only [ofExpr_eq_error_iff, exists_stagesOf_eq_error_iff, List.mem_reverse]

theorem ofExpr_eq_none_iff : ofExpr e = .ok none ↔ e.chain = [] := by
  unfold ofExpr
  split
  · rename_i hempty
    simp [List.isEmpty_iff.mp hempty]
  · rename_i hne
    have hchain : e.chain ≠ [] := fun hnil => hne (List.isEmpty_iff.mpr hnil)
    cases stagesOf e.chain.reverse <;> simp [Except.map, hchain]

/-- A wrong target is not an error of the backend. -/
theorem stagesOf_ne_backend {chain : List (Path × EvaluableForm)} {error : BackendError} :
    stagesOf chain ≠ .error (.backend error) := by
  induction chain with
  | nil => simp [stagesOf]
  | cons entry rest ih =>
    obtain ⟨path, form⟩ := entry
    cases form with
    | inline mode operand result =>
      cases hrest : stagesOf rest with
      | error other =>
        rw [hrest] at ih
        simpa [stagesOf, stageOf, hrest, Except.map] using ih
      | ok stages => simp [stagesOf, stageOf, hrest, Except.map]
    | assign target body =>
      have hsingle : ∀ b, singleTarget target ≠ .error (.backend b) := by
        intro b
        unfold singleTarget
        split <;> simp
      cases hstage : singleTarget target with
      | error other =>
        have hother : other ≠ .backend error := fun heq => hsingle error (heq ▸ hstage)
        simpa [stagesOf, stageOf, hstage, Except.map] using hother
      | ok name =>
        cases hrest : stagesOf rest with
        | error other =>
          rw [hrest] at ih
          simpa [stagesOf, stageOf, hstage, hrest, Except.map] using ih
        | ok stages => simp [stagesOf, stageOf, hstage, hrest, Except.map]

/-- Whether an expression has a plan does not depend on the results in it. -/
theorem ofExpr_congr (h : a.blanked = b.blanked) : ofExpr a = ofExpr b := by
  have hempty : a.chain.isEmpty = b.chain.isEmpty := by
    have hlength := congrArg List.length (Expr.skeleton_congr h)
    rw [Expr.skeleton, Expr.skeleton, List.length_map, List.length_map] at hlength
    rw [Bool.eq_iff_iff, List.isEmpty_iff_length_eq_zero, List.isEmpty_iff_length_eq_zero, hlength]
  unfold ofExpr
  rw [hempty, stagesOf_congr h]

end Plan

end MathCanvas
