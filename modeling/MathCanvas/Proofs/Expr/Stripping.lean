import MathCanvas.Proofs.Expr.Slots

/-!
# Taking results out

`Expr.stripResults` goes through the result slots of an expression and leaves the rest alone. Form
by form, it strips the operand and empties the slot (`Expr.stripResults_equal` and its siblings), so
that a slot is left with its own placeholder or with the plain one (`Expr.at?_stripResults`).
-/

namespace MathCanvas

namespace Expr

/-- What is left of the contents of a slot: a placeholder as it is written, and the plain one in
place of everything else. -/
def emptied (content : Expr) : Expr := if content.isMissing then content else missing

theorem isMissing_emptied (content : Expr) : content.emptied.isMissing = true := by
  unfold emptied
  split
  · assumption
  · rfl

theorem emptied_eq_self_iff {content : Expr} : content.emptied = content ↔ content.isMissing = true
    := by
  constructor
  · intro h
    rw [← h]
    exact isMissing_emptied content
  · intro h
    rw [emptied, ite_cond_eq_true _ _ (eq_true h)]

/-! ### Form by form -/

theorem resultPaths_eq (e : Expr) : e.resultPaths = e.chain.filterMap fun entry =>
    (if entry.2.hasResult then entry.2.resultIndex? else none).map fun i => entry.1 ++ [i] := by
  rw [resultPaths]
  congr 1
  funext ⟨path, form⟩
  cases hresult : form.hasResult <;> simp [hresult]

theorem resultPaths_assign (target body : Expr) :
    (app "Assign" [target, body]).resultPaths = body.resultPaths.map (1 :: ·) := by
  rw [resultPaths_eq, resultPaths_eq, chain_assign, List.filterMap_cons,
    filterMap_chain_map fun form => if form.hasResult then form.resultIndex? else none]
  rfl

theorem resultPaths_equal (operand result : Expr) :
    (app "Equal" [operand, result]).resultPaths =
      (if result.isMissing then [] else [[1]]) ++ operand.resultPaths.map (0 :: ·) := by
  rw [resultPaths_eq, resultPaths_eq, chain_equal, List.filterMap_cons,
    filterMap_chain_map fun form => if form.hasResult then form.resultIndex? else none]
  cases hmissing : result.isMissing with
  | false =>
    simp [EvaluableForm.hasResult, hmissing]
    rfl
  | true => simp [EvaluableForm.hasResult, hmissing]

theorem resultPaths_evaluate (operand directive result : Expr) :
    (app "Evaluate" [operand, directive, result]).resultPaths =
      (if result.isMissing then [] else [[2]]) ++ operand.resultPaths.map (0 :: ·) := by
  rw [resultPaths_eq, resultPaths_eq, chain_evaluate, List.filterMap_cons,
    filterMap_chain_map fun form => if form.hasResult then form.resultIndex? else none]
  cases hmissing : result.isMissing with
  | false =>
    simp [EvaluableForm.hasResult, hmissing]
    rfl
  | true => simp [EvaluableForm.hasResult, hmissing]

theorem stripResults_eq_fill (e : Expr) :
    e.stripResults = e.fill (e.resultPaths.map fun path => (path, missing)) := by
  rw [fill, List.foldl_map]
  rfl

/-- Stripping an argument, seen from the application. -/
theorem fill_resultPaths_below {head : String} (args : List Expr) {i : Nat} {a : Expr}
    (ha : args[i]? = some a) :
    (app head args).fill ((a.resultPaths.map (i :: ·)).map fun path => (path, missing)) =
      app head (args.set i a.stripResults) := by
  have hmap : (a.resultPaths.map (i :: ·)).map (fun path => (path, missing)) =
      (a.resultPaths.map fun path => (path, missing)).map fun entry => (i :: entry.1, entry.2) := by
    simp [List.map_map, Function.comp_def]
  rw [hmap, fill_below _ ha, ← stripResults_eq_fill]

theorem stripResults_assign (target body : Expr) :
    (app "Assign" [target, body]).stripResults = app "Assign" [target, body.stripResults] := by
  rw [stripResults_eq_fill, resultPaths_assign, fill_resultPaths_below _ (a := body) rfl]
  rfl

theorem stripResults_equal (operand result : Expr) :
    (app "Equal" [operand, result]).stripResults =
      app "Equal" [operand.stripResults, result.emptied] := by
  rw [stripResults_eq_fill, resultPaths_equal, emptied]
  split
  · rw [List.nil_append, fill_resultPaths_below _ (a := operand) rfl]
    rfl
  · exact fill_resultPaths_below [operand, missing] (a := operand) rfl

theorem stripResults_evaluate (operand directive result : Expr) :
    (app "Evaluate" [operand, directive, result]).stripResults =
      app "Evaluate" [operand.stripResults, directive, result.emptied] := by
  rw [stripResults_eq_fill, resultPaths_evaluate, emptied]
  split
  · rw [List.nil_append, fill_resultPaths_below _ (a := operand) rfl]
    rfl
  · exact fill_resultPaths_below [operand, directive, missing] (a := operand) rfl

theorem resultPaths_inert {e : Expr} (hchain : e.chain = []) : e.resultPaths = [] := by
  rw [resultPaths, hchain]
  rfl

theorem stripResults_inert {e : Expr} (hchain : e.chain = []) : e.stripResults = e := by
  rw [stripResults, resultPaths_inert hchain]
  rfl

/-! ### What stripping does -/

theorem at?_stripResults {e : Expr} {slot : Path} (hslot : slot ∈ e.slots) :
    e.stripResults.at? slot = (e.at? slot).map emptied := by
  induction e using chain_induction generalizing slot with
  | assign target body ih =>
    rw [slots_assign] at hslot
    obtain ⟨inner, hinner, rfl⟩ := List.mem_map.mp hslot
    rw [stripResults_assign, at?_cons (a := body.stripResults) rfl, at?_cons (a := body) rfl]
    exact ih hinner
  | equal operand result ih =>
    rw [slots_equal] at hslot
    rw [stripResults_equal]
    rcases List.mem_cons.mp hslot with rfl | hslot
    · rw [at?_cons (a := result.emptied) rfl, at?_cons (a := result) rfl, at?_nil, at?_nil]
      rfl
    · obtain ⟨inner, hinner, rfl⟩ := List.mem_map.mp hslot
      rw [at?_cons (a := operand.stripResults) rfl, at?_cons (a := operand) rfl]
      exact ih hinner
  | evaluate operand directive result ih =>
    rw [slots_evaluate] at hslot
    rw [stripResults_evaluate]
    rcases List.mem_cons.mp hslot with rfl | hslot
    · rw [at?_cons (a := result.emptied) rfl, at?_cons (a := result) rfl, at?_nil, at?_nil]
      rfl
    · obtain ⟨inner, hinner, rfl⟩ := List.mem_map.mp hslot
      rw [at?_cons (a := operand.stripResults) rfl, at?_cons (a := operand) rfl]
      exact ih hinner
  | inert e hchain _ =>
    rw [slots_inert hchain] at hslot
    cases hslot

theorem hasResults_assign (target body : Expr) :
    (app "Assign" [target, body]).hasResults = body.hasResults := by
  simp [hasResults, resultPaths_assign]

theorem hasResults_equal (operand result : Expr) :
    (app "Equal" [operand, result]).hasResults = (!result.isMissing || operand.hasResults) := by
  cases hmissing : result.isMissing <;> simp [hasResults, resultPaths_equal, hmissing]

theorem hasResults_evaluate (operand directive result : Expr) :
    (app "Evaluate" [operand, directive, result]).hasResults =
      (!result.isMissing || operand.hasResults) := by
  cases hmissing : result.isMissing <;> simp [hasResults, resultPaths_evaluate, hmissing]

/-- Without results there is nothing to strip, and only then. -/
theorem stripResults_eq_self_iff {e : Expr} : e.stripResults = e ↔ e.hasResults = false := by
  induction e using chain_induction with
  | assign target body ih =>
    rw [stripResults_assign, hasResults_assign, ← ih]
    simp
  | equal operand result ih =>
    rw [stripResults_equal, hasResults_equal, Bool.or_eq_false_iff, ← ih, Bool.not_eq_false',
      ← emptied_eq_self_iff]
    simp [and_comm]
  | evaluate operand directive result ih =>
    rw [stripResults_evaluate, hasResults_evaluate, Bool.or_eq_false_iff, ← ih, Bool.not_eq_false',
      ← emptied_eq_self_iff]
    simp [and_comm]
  | inert e hchain _ =>
    simp [stripResults_inert hchain, hasResults, resultPaths_inert hchain]

/-- Where all slots hold placeholders there are no results. -/
theorem hasResults_stripResults (e : Expr) : e.stripResults.hasResults = false := by
  induction e using chain_induction with
  | assign target body ih => rw [stripResults_assign, hasResults_assign, ih]
  | equal operand result ih => simp [stripResults_equal, hasResults_equal, isMissing_emptied, ih]
  | evaluate operand directive result ih =>
    simp [stripResults_evaluate, hasResults_evaluate, isMissing_emptied, ih]
  | inert e hchain _ =>
    simp [stripResults_inert hchain, hasResults, resultPaths_inert hchain]

theorem exists_at?_stripResults {e : Expr} {slot : Path} (hslot : slot ∈ e.slots) :
    ∃ old, e.at? slot = some old ∧ e.stripResults.at? slot = some old.emptied := by
  obtain ⟨old, hold⟩ := exists_at?_of_mem_slots hslot
  exact ⟨old, hold, by rw [at?_stripResults hslot, hold]; rfl⟩

/-- Stripping puts a placeholder into every result slot, leaves what is one as it is written, and
touches nothing else. The flag tells whether the expression has changed. Stripping twice is
stripping once, it changes neither the chain nor the names, and nothing of what the slots have held
is left. -/
theorem stripResults_spec (e : Expr) :
    (∀ slot ∈ e.slots, ∃ old new, e.at? slot = some old ∧ e.stripResults.at? slot = some new ∧
      new.isMissing = true ∧ (old.isMissing = true → new = old)) ∧
    e.stripResults.blanked = e.blanked ∧
    (e.hasResults = true ↔ e.stripResults ≠ e) ∧
    e.stripResults.stripResults = e.stripResults ∧
    e.stripResults.skeleton = e.skeleton ∧
    e.stripResults.readNames = e.readNames ∧
    e.stripResults.writtenNames = e.writtenNames ∧
    ∀ values : List (Path × Expr), (∀ entry ∈ values, entry.1 ∈ e.slots) →
      (e.fill values).stripResults.blanked = e.stripResults.blanked ∧
      ∀ slot ∈ e.slots, ∃ a b, (e.fill values).stripResults.at? slot = some a ∧
        e.stripResults.at? slot = some b ∧ a.isMissing = true ∧ b.isMissing = true := by
  have hblanked : e.stripResults.blanked = e.blanked := blanked_stripResults e
  refine ⟨?_, hblanked, ?_, stripResults_eq_self_iff.mpr (hasResults_stripResults e),
    skeleton_congr hblanked, readNames_congr hblanked, writtenNames_congr hblanked, ?_⟩
  · intro slot hslot
    obtain ⟨old, hold, hnew⟩ := exists_at?_stripResults hslot
    exact ⟨old, old.emptied, hold, hnew, isMissing_emptied old, emptied_eq_self_iff.mpr⟩
  · rw [Ne, stripResults_eq_self_iff, Bool.not_eq_false]
  · intro values hvalues
    have hfilled : (e.fill values).blanked = e.blanked := blanked_fill hvalues
    refine ⟨by rw [blanked_stripResults, hfilled, hblanked], fun slot hslot => ?_⟩
    obtain ⟨old, -, hnew⟩ := exists_at?_stripResults hslot
    obtain ⟨other, -, hother⟩ :=
      exists_at?_stripResults (e := e.fill values) (slots_congr hfilled ▸ hslot)
    exact ⟨other.emptied, old.emptied, hother, hnew, isMissing_emptied other,
      isMissing_emptied old⟩

/-- A result that is an evaluation with a result of its own leaves no trace. -/
theorem stripResults_spec_nested :
    let e := app "Equal" [symbol "x", app missingName [symbol "y"]]
    let result := app "Equal" [symbol "z", symbol "w"]
    (∀ entry ∈ [(([1] : Path), result)], entry.1 ∈ e.slots) ∧
      (e.fill [([1], result)]).stripResults.blanked = e.stripResults.blanked := by
  intro e result
  have hvalues : ∀ entry ∈ [(([1] : Path), result)], entry.1 ∈ e.slots := by
    intro entry hentry
    cases List.mem_singleton.mp hentry
    exact List.mem_singleton.mpr rfl
  obtain ⟨-, -, -, -, -, -, -, hfill⟩ := stripResults_spec e
  exact ⟨hvalues, (hfill _ hvalues).1⟩

end Expr

end MathCanvas
