import MathCanvas.Proofs.Expr.Stages

/-!
# What the first request of a plan reads

The walk that finds the names of an expression goes down the same arguments as its chain: an
expression reads what the operand of its innermost form reads (`Expr.reads_innermost`), and the
request that a plan begins with reads nothing else (`Plan.next_first`). What the stages of a plan
assign to is written by the expression (`Plan.Fits.mem_writtenNames`).
-/

namespace MathCanvas

theorem mem_insertName {name n : String} {names : List String} :
    n ∈ insertName name names ↔ n = name ∨ n ∈ names := by
  induction names with
  | nil => simp [insertName]
  | cons other rest ih =>
    unfold insertName
    split
    · simp
    split
    · rename_i heq
      simp [eq_of_beq heq]
    · simp only [List.mem_cons, ih]
      exact or_left_comm

theorem mem_sortNames {n : String} {names : List String} : n ∈ sortNames names ↔ n ∈ names := by
  have hfold : ∀ sorted : List String,
      n ∈ names.foldl (fun sorted name => insertName name sorted) sorted ↔
        n ∈ names ∨ n ∈ sorted := by
    induction names with
    | nil => simp
    | cons name rest ih =>
      intro sorted
      rw [List.foldl_cons, ih, mem_insertName, List.mem_cons]
      exact or_left_comm.trans or_assoc.symm
  rw [sortNames, hfold]
  simp

namespace Expr

variable {e operand target : Expr} {path : Path} {form : EvaluableForm}

theorem reads_assign (target body : Expr) : (app "Assign" [target, body]).reads = body.reads := by
  simp [reads, readsOfSecond, missingName]

theorem reads_equal (operand result : Expr) :
    (app "Equal" [operand, result]).reads = operand.reads := by
  simp [reads, readsOfFirst, missingName]

theorem reads_evaluate (operand directive result : Expr) :
    (app "Evaluate" [operand, directive, result]).reads = operand.reads := by
  simp [reads, readsOfFirst, missingName]

/-- Below a form that has another one inside it, the innermost form is the same one. -/
theorem getLast?_below {i : Nat} {top : EvaluableForm} {chain : List (Path × EvaluableForm)}
    (h : (([], top) :: chain.map fun entry => (i :: entry.1, entry.2)).getLast? =
      some (path, form)) :
    chain = [] ∧ path = [] ∧ form = top ∨
      ∃ inner, path = i :: inner ∧ chain.getLast? = some (inner, form) := by
  rw [List.getLast?_cons, List.getLast?_map] at h
  cases hlast : chain.getLast? with
  | none =>
    rw [hlast] at h
    cases h
    exact .inl ⟨List.getLast?_eq_none_iff.mp hlast, rfl, rfl⟩
  | some entry =>
    rw [hlast] at h
    cases h
    exact .inr ⟨entry.1, rfl, rfl⟩

/-- An expression reads what the operand of its innermost form reads. -/
theorem reads_innermost (h : e.chain.getLast? = some (path, form)) :
    form.operand.reads = e.reads := by
  induction e using chain_induction generalizing path with
  | assign target body ih =>
    rw [chain_assign] at h
    rcases getLast?_below h with ⟨-, -, rfl⟩ | ⟨inner, -, hinner⟩
    · exact (reads_assign target body).symm
    · rw [ih hinner, reads_assign]
  | equal operand result ih =>
    rw [chain_equal] at h
    rcases getLast?_below h with ⟨-, -, rfl⟩ | ⟨inner, -, hinner⟩
    · exact (reads_equal operand result).symm
    · rw [ih hinner, reads_equal]
  | evaluate operand directive result ih =>
    rw [chain_evaluate] at h
    rcases getLast?_below h with ⟨-, -, rfl⟩ | ⟨inner, -, hinner⟩
    · exact (reads_evaluate operand directive result).symm
    · rw [ih hinner, reads_evaluate]
  | inert e hchain _ => simp [hchain] at h

/-- A request for an operand reads what the operand reads, whatever it is to be evaluated to. -/
theorem readNames_inlineRequest (mode : InlineMode) (operand : Expr) :
    (inlineRequest mode operand).readNames = operand.readNames := by
  cases mode with
  | numeric => rw [inlineRequest, readNames, reads_equal, readNames]
  | symbolic directive => rw [inlineRequest, readNames, reads_evaluate, readNames]

theorem mem_writtenNames {name : String} {body : Expr}
    (h : (path, EvaluableForm.assign target body) ∈ e.chain) (hname : name ∈ target.targets) :
    name ∈ e.writtenNames := by
  rw [writtenNames, mem_sortNames, List.mem_flatMap]
  exact ⟨(path, .assign target body), h, hname⟩

end Expr

namespace Plan

variable {plan : Plan} {e : Expr}

/-- What a plan that fits assigns to is written by the expression. -/
theorem Fits.mem_writtenNames (h : plan.Fits e) {stage : Stage} {target : String}
    (hstage : stage ∈ plan.stages) (hkind : stage.kind = .assign target) :
    target ∈ e.writtenNames := by
  obtain ⟨stages, hstages, hsuffix⟩ := h
  obtain ⟨⟨path, form⟩, hentry, hform⟩ := mem_of_stagesOf hstages (hsuffix.subset hstage)
  cases form with
  | inline mode operand result =>
    cases hform
    cases hkind
  | assign target' body =>
    obtain ⟨name, hname, rfl⟩ := stageOf_eq_ok_assign_iff.mp hform
    cases hkind
    refine Expr.mem_writtenNames (List.mem_reverse.mp hentry) ?_
    rw [hname]
    exact List.mem_singleton_self target

theorem stagesOf_of_ofExpr (h : ofExpr e = .ok (some plan)) :
    stagesOf e.chain.reverse = .ok plan.stages ∧ plan.carried = none ∧ e.chain ≠ [] := by
  unfold ofExpr at h
  split at h
  · cases h
  · rename_i hempty
    cases hstages : stagesOf e.chain.reverse with
    | error error => simp [hstages, Except.map] at h
    | ok stages =>
      rw [hstages] at h
      cases h
      exact ⟨rfl, rfl, fun hnil => hempty (List.isEmpty_iff.mpr hnil)⟩

/-- A plan begins with a request that reads what the expression reads. -/
theorem next_first (h : ofExpr e = .ok (some plan)) :
    ∃ request, plan.next e = .request request ∧ request.readNames = e.readNames := by
  obtain ⟨hstages, hcarried, hne⟩ := stagesOf_of_ofExpr h
  obtain ⟨⟨path, form⟩, hlast⟩ : ∃ entry, e.chain.getLast? = some entry :=
    ⟨_, List.getLast?_eq_some_getLast hne⟩
  have hform : e.chain.reverse[0]? = some (path, form) := by
    rw [← List.head?_eq_getElem?, List.head?_reverse, hlast]
  have hreads : form.operand.readNames = e.readNames := by
    rw [Expr.readNames, Expr.reads_innermost hlast, Expr.readNames]
  obtain ⟨stages, carried⟩ := plan
  cases hcarried
  obtain ⟨stage, rest, hstage, hplan⟩ :=
    Pursuit.exists_plan_after (fun _ => .missing) hstages hform
  have hdoes : form.Does none (Pursuit.start e ⟨stages, none⟩).action :=
    Pursuit.does_of_stageOf hplan hstage fun _ =>
      Expr.at?_operand (List.mem_reverse.mp (List.mem_of_getElem? hform))
  have haction : (Pursuit.start e ⟨stages, none⟩).action = next ⟨stages, none⟩ e := rfl
  rw [haction] at hdoes
  generalize next ⟨stages, none⟩ e = action at hdoes
  cases hdoes with
  | askForBody target body => exact ⟨_, rfl, hreads⟩
  | askForOperand mode operand result =>
    exact ⟨_, rfl, (Expr.readNames_inlineRequest mode operand).trans hreads⟩

/-- A plan asks first for what the expression reads, and assigns to what it writes. -/
structure Agrees (plan : Plan) (e : Expr) : Prop where
  first : ∃ request, plan.next e = .request request ∧ request.readNames = e.readNames
  targets : ∀ stage ∈ plan.stages, ∀ target, stage.kind = .assign target →
    target ∈ e.writtenNames

theorem Agrees.of_ofExpr (h : ofExpr e = .ok (some plan)) : plan.Agrees e where
  first := next_first h
  targets _ hstage _ hkind := (fits_of_ofExpr h).mem_writtenNames hstage hkind

end Plan

end MathCanvas
