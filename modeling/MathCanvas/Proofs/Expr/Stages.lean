import Mathlib.Data.List.Forall2
import MathCanvas.Proofs.Expr.Slots
import MathCanvas.Proofs.Expr.Targets

/-!
# Carrying out a plan

A *pursuit* is the carrying out of a plan, stage after stage, in which every request gets the next
answer of a given sequence. The forms on the chain of the expression get their values one by one,
from the innermost outwards (`Pursuit.ahead_after`), and each finds the value of the form inside it
in the plan (`EvaluableForm.Does`). Every result goes into a slot that exists, and stays there to
the end (`Pursuit.at?_after`).
-/

namespace MathCanvas

/-- What a form comes to, given the value of the form inside it: the innermost form asks for its own
operand, the other ones continue with that value. -/
inductive EvaluableForm.Does : EvaluableForm → Option Expr → PlanAction → Prop
  | askForBody (target body : Expr) : Does (.assign target body) none (.request body)
  | assign {target : Expr} {name : String} (body value : Expr) (htarget : target.targets = [name]) :
    Does (.assign target body) (some value) (.assign name value)
  | askForOperand (mode : InlineMode) (operand result : Expr) :
    Does (.inline mode operand result) none (.request (Expr.inlineRequest mode operand))
  | askForValue (mode : InlineMode) (operand result value : Expr) :
    Does (.inline mode operand result) (some value) (.request (Expr.inlineRequest mode value))

/-- A plan that is being carried out on an expression, and how many requests have been answered. -/
structure Pursuit where
  expression : Expr
  plan : Plan
  answered : Nat

namespace Pursuit

/-- A plan that has not begun. -/
def start (e : Expr) (plan : Plan) : Pursuit := ⟨e, plan, 0⟩

def action (pursuit : Pursuit) : PlanAction := pursuit.plan.next pursuit.expression

/-- The value of the next stage: the one that is assigned, or else the next answer. -/
def value (answers : Nat → Expr) (pursuit : Pursuit) : Expr :=
  match pursuit.action with
  | .assign _ value => value
  | .request _ | .finished => answers pursuit.answered

/-- The name that the next stage assigns its value to. -/
def assigned? (answers : Nat → Expr) (pursuit : Pursuit) : Option String :=
  (pursuit.plan.complete pursuit.expression (pursuit.value answers)).1

/-- Completes the next stage. -/
def step (answers : Nat → Expr) (pursuit : Pursuit) : Pursuit :=
  let (_, expression, plan) := pursuit.plan.complete pursuit.expression (pursuit.value answers)
  let answered :=
    match pursuit.action with
    | .request _ => pursuit.answered + 1
    | .assign .. | .finished => pursuit.answered
  ⟨expression, plan, answered⟩

/-- Completes a number of stages. -/
def after (answers : Nat → Expr) (pursuit : Pursuit) : Nat → Pursuit
  | 0 => pursuit
  | i + 1 => (pursuit.after answers i).step answers

end Pursuit

namespace Plan

/-! ### Errors -/

/-- The error of a target that does not stand for exactly one name. -/
theorem singleTarget_eq_error_iff {target : Expr} {error : CellError} :
    singleTarget target = .error error ↔ target.targets.length ≠ 1 ∧
      error = if target.targets = [] then .invalidTarget target
        else .multipleTargets target.targets := by
  unfold singleTarget
  rcases target.targets with _ | ⟨name, _ | ⟨other, rest⟩⟩ <;> simp [eq_comm]

theorem singleTarget_eq_ok_iff {target : Expr} {name : String} :
    singleTarget target = .ok name ↔ target.targets = [name] := by
  unfold singleTarget
  rcases target.targets with _ | ⟨name', _ | ⟨other, rest⟩⟩ <;> simp

theorem stageOf_eq_error_iff {path : Path} {form : EvaluableForm} {error : CellError} :
    stageOf path form = .error error ↔
      ∃ target body, form = .assign target body ∧ singleTarget target = .error error := by
  cases form with
  | inline mode operand result => simp [stageOf]
  | assign target body => cases hname : singleTarget target <;> simp [stageOf, hname, Except.map]

/-- The first wrong target in the order of the list is reported. -/
theorem stagesOf_eq_error_iff {chain : List (Path × EvaluableForm)} {error : CellError} :
    stagesOf chain = .error error ↔ ∃ inner path target body outer,
      chain = inner ++ (path, .assign target body) :: outer ∧
        singleTarget target = .error error ∧
        ∀ p t b, (p, EvaluableForm.assign t b) ∈ inner → t.targets.length = 1 := by
  induction chain with
  | nil => simp [stagesOf]
  | cons entry rest ih =>
    obtain ⟨path, form⟩ := entry
    constructor
    · intro h
      rw [stagesOf] at h
      cases hstage : stageOf path form with
      | error other =>
        rw [hstage] at h
        cases h
        obtain ⟨target, body, rfl, htarget⟩ := stageOf_eq_error_iff.mp hstage
        exact ⟨[], path, target, body, rest, rfl, htarget, fun _ _ _ hmem => by cases hmem⟩
      | ok stage =>
        have hrest : stagesOf rest = .error error := by
          rw [hstage] at h
          cases hrest : stagesOf rest <;> simp_all [Except.map]
        obtain ⟨inner, p, target, body, outer, rfl, htarget, hinner⟩ := ih.mp hrest
        refine ⟨(path, form) :: inner, p, target, body, outer, rfl, htarget, ?_⟩
        intro p' t b hmem
        rcases List.mem_cons.mp hmem with heq | hmem
        · cases heq
          by_contra hlength
          obtain ⟨other, hother⟩ := exists_stageOf_eq_error_iff.mpr ⟨t, b, rfl, hlength⟩
          rw [hother] at hstage
          cases hstage
        · exact hinner p' t b hmem
    · rintro ⟨inner, p, target, body, outer, heq, htarget, hinner⟩
      cases inner with
      | nil =>
        cases heq
        have hstage : stageOf path (.assign target body) = .error error :=
          stageOf_eq_error_iff.mpr ⟨target, body, rfl, htarget⟩
        rw [stagesOf, hstage]
      | cons first inner =>
        cases heq
        have hrest := ih.mpr ⟨inner, p, target, body, outer, rfl, htarget,
          fun p' t b hmem => hinner p' t b (List.mem_cons_of_mem _ hmem)⟩
        rw [stagesOf, hrest]
        cases hstage : stageOf path form with
        | ok stage => rfl
        | error other =>
          obtain ⟨t, b, rfl, ht⟩ := stageOf_eq_error_iff.mp hstage
          exact absurd (hinner path t b List.mem_cons_self) (singleTarget_eq_error_iff.mp ht).1

/-! ### Stages and forms -/

/-- There is one stage for each form. -/
theorem stagesOf_eq_ok_iff {chain : List (Path × EvaluableForm)} {stages : List Stage} :
    stagesOf chain = .ok stages ↔
      List.Forall₂ (fun entry stage => stageOf entry.1 entry.2 = .ok stage) chain stages := by
  induction chain generalizing stages with
  | nil => simp [stagesOf, eq_comm]
  | cons entry rest ih =>
    rw [List.forall₂_cons_left_iff]
    simp only [← ih, stagesOf]
    cases hstage : stageOf entry.1 entry.2 with
    | error error => simp
    | ok stage => cases stagesOf rest <;> simp [Except.map, eq_comm]

theorem stageOf_eq_ok_assign_iff {path : Path} {target body : Expr} {stage : Stage} :
    stageOf path (.assign target body) = .ok stage ↔
      ∃ name, target.targets = [name] ∧ stage = ⟨path ++ [1], .assign name⟩ := by
  simp only [← singleTarget_eq_ok_iff]
  cases hname : singleTarget target <;>
    simp [stageOf, hname, Except.map, EvaluableForm.operandIndex, eq_comm]

theorem complete_plan {plan : Plan} {stage : Stage} {rest : List Stage}
    (h : plan.stages = stage :: rest) (e value : Expr) :
    (plan.complete e value).2.2 = ⟨rest, some value⟩ := by
  obtain ⟨stages, carried⟩ := plan
  obtain ⟨operandPath, kind⟩ := stage
  cases h
  cases kind <;> rfl

end Plan

namespace Pursuit

variable {answers : Nat → Expr} {e : Expr} {stages : List Stage}

/-! ### One stage -/

/-- The stage of a form does what the form comes to. -/
theorem does_of_stageOf {pursuit : Pursuit} {path : Path} {form : EvaluableForm} {stage : Stage}
    {rest : List Stage} {carried : Option Expr} (hplan : pursuit.plan = ⟨stage :: rest, carried⟩)
    (hstage : Plan.stageOf path form = .ok stage)
    (hoperand : carried = none →
      pursuit.expression.at? (path ++ [form.operandIndex]) = some form.operand) :
    form.Does carried pursuit.action := by
  obtain ⟨expression, plan, answered⟩ := pursuit
  cases hplan
  cases form with
  | assign target body =>
    obtain ⟨name, htarget, rfl⟩ := Plan.stageOf_eq_ok_assign_iff.mp hstage
    cases carried with
    | none =>
      have hask : action ⟨expression, ⟨⟨path ++ [1], .assign name⟩ :: rest, none⟩, answered⟩ =
          .request ((expression.at? (path ++ [1])).getD .missing) := rfl
      have hbody : expression.at? (path ++ [1]) = some body := hoperand rfl
      rw [hask, hbody]
      exact .askForBody target body
    | some value => exact .assign body value htarget
  | inline mode operand result =>
    cases hstage
    cases carried with
    | none =>
      have hoperand : expression.at? (path ++ [0]) = some operand := hoperand rfl
      simp only [action, Plan.next, EvaluableForm.operandIndex, hoperand, Option.getD_none,
        Option.getD_some]
      exact .askForOperand mode operand result
    | some value => exact .askForValue mode operand result value

/-- The value of a form goes into its result slot, if it has one, and to the name it assigns. -/
theorem step_of_stageOf {pursuit : Pursuit} {path : Path} {form : EvaluableForm} {stage : Stage}
    {rest : List Stage} {carried : Option Expr} (hplan : pursuit.plan = ⟨stage :: rest, carried⟩)
    (hstage : Plan.stageOf path form = .ok stage) :
    (pursuit.assigned? answers).toList = form.names ∧
      (pursuit.step answers).expression = form.resultIndex?.elim pursuit.expression fun index =>
        pursuit.expression.replaceAt (path ++ [index]) (pursuit.value answers) := by
  obtain ⟨expression, plan, answered⟩ := pursuit
  cases hplan
  cases form with
  | assign target body =>
    obtain ⟨name, htarget, rfl⟩ := Plan.stageOf_eq_ok_assign_iff.mp hstage
    exact ⟨htarget.symm, rfl⟩
  | inline mode operand result =>
    cases hstage
    cases mode <;> exact ⟨rfl, rfl⟩

/-- A plan that is finished stays as it is. -/
theorem step_plan_of_finished {pursuit : Pursuit} (h : pursuit.plan.stages = []) :
    (pursuit.step answers).plan = pursuit.plan := by
  obtain ⟨expression, ⟨stages, carried⟩, answered⟩ := pursuit
  cases h
  rfl

/-- The value of the form inside the next one. -/
def inner (answers : Nat → Expr) (pursuit : Pursuit) : Nat → Option Expr
  | 0 => none
  | i + 1 => some ((pursuit.after answers i).value answers)

/-! ### Stage after stage -/

/-- As long as stages are ahead, the expression has not changed outside of its slots, and the plan
carries the value of the stage before. -/
theorem ahead_after (answers : Nat → Expr)
    (hstages : Plan.stagesOf e.chain.reverse = .ok stages) {i : Nat} (hi : i ≤ stages.length) :
    ((start e ⟨stages, none⟩).after answers i).expression.blanked = e.blanked ∧
      ((start e ⟨stages, none⟩).after answers i).plan =
        ⟨stages.drop i, (start e ⟨stages, none⟩).inner answers i⟩ := by
  induction i with
  | zero => exact ⟨rfl, rfl⟩
  | succ i ih =>
    obtain ⟨hblanked, hplan⟩ := ih (Nat.le_of_succ_le hi)
    have hnext : ((start e ⟨stages, none⟩).after answers i).plan.stages =
        stages[i] :: stages.drop (i + 1) := by
      rw [hplan, List.drop_eq_getElem_cons hi]
    have hfits : ((start e ⟨stages, none⟩).after answers i).plan.Fits
        ((start e ⟨stages, none⟩).after answers i).expression := by
      refine Plan.Fits.congr ⟨stages, hstages, ?_⟩ hblanked.symm
      rw [hplan]
      exact List.drop_suffix _ _
    exact ⟨(hfits.complete _).1.trans hblanked, Plan.complete_plan hnext _ _⟩

/-- Nothing is left to do once every form has its value. -/
theorem action_eq_finished_iff (hstages : Plan.stagesOf e.chain.reverse = .ok stages) (i : Nat) :
    ((start e ⟨stages, none⟩).after answers i).action = .finished ↔ stages.length ≤ i := by
  constructor
  · intro haction
    rw [← Nat.not_lt]
    intro hi
    obtain ⟨-, hplan⟩ := ahead_after answers hstages (Nat.le_of_lt hi)
    rw [action, hplan, Plan.next, List.drop_eq_getElem_cons hi] at haction
    simp only at haction
    split at haction <;> cases haction
  · intro hi
    obtain ⟨further, rfl⟩ := Nat.exists_eq_add_of_le hi
    have hdone : ((start e ⟨stages, none⟩).after answers (stages.length + further)).plan.stages =
        [] := by
      induction further with
      | zero => rw [Nat.add_zero, (ahead_after answers hstages (Nat.le_refl _)).2, List.drop_length]
      | succ further ih =>
        rw [← Nat.add_assoc, after, step_plan_of_finished (ih (Nat.le_add_right _ _)),
          ih (Nat.le_add_right _ _)]
    rw [action, Plan.next, hdone]

/-- The form at a place of the chain, from the inside out, has its stage at this place. -/
theorem exists_plan_after (answers : Nat → Expr)
    (hstages : Plan.stagesOf e.chain.reverse = .ok stages) {i : Nat} {path : Path} {form : EvaluableForm} (hform : e.chain.reverse[i]? = some (path, form)) :
    ∃ stage rest, Plan.stageOf path form = .ok stage ∧
      ((start e ⟨stages, none⟩).after answers i).plan =
        ⟨stage :: rest, (start e ⟨stages, none⟩).inner answers i⟩ := by
  have hall := Plan.stagesOf_eq_ok_iff.mp hstages
  obtain ⟨hchain, heq⟩ := List.getElem?_eq_some_iff.mp hform
  have hi : i < stages.length := hall.length_eq ▸ hchain
  refine ⟨stages[i], stages.drop (i + 1), ?_, ?_⟩
  · simpa only [List.get_eq_getElem, heq] using hall.get hchain hi
  · rw [(ahead_after answers hstages (Nat.le_of_lt hi)).2, List.drop_eq_getElem_cons hi]

/-- The slots of different forms are different. -/
theorem slot_ne {i j : Nat} {path other : Path} {form form' : EvaluableForm} (hij : i ≠ j)
    (hi : e.chain.reverse[i]? = some (path, form))
    (hj : e.chain.reverse[j]? = some (other, form')) (index index' : Nat) :
    path ++ [index] ≠ other ++ [index'] := by
  intro heq
  have hlength : path.length = other.length := by
    simpa using congrArg List.length heq
  have hil := (List.getElem?_eq_some_iff.mp hi).1
  have hjl := (List.getElem?_eq_some_iff.mp hj).1
  rw [List.length_reverse] at hil hjl
  rw [List.getElem?_reverse hil] at hi
  rw [List.getElem?_reverse hjl] at hj
  rw [Expr.length_of_getElem?_chain hi, Expr.length_of_getElem?_chain hj] at hlength
  omega

/-- From its completion on, the result slot of a form holds the value of the form. -/
theorem at?_after (hstages : Plan.stagesOf e.chain.reverse = .ok stages) {i : Nat} {path : Path}
    {form : EvaluableForm} {index : Nat} (hform : e.chain.reverse[i]? = some (path, form))
    (hindex : form.resultIndex? = some index) {j : Nat} (hij : i < j) (hj : j ≤ stages.length) :
    ((start e ⟨stages, none⟩).after answers j).expression.at? (path ++ [index]) =
      some (((start e ⟨stages, none⟩).after answers i).value answers) := by
  have hlength : stages.length = e.chain.reverse.length :=
    (Plan.stagesOf_eq_ok_iff.mp hstages).length_eq.symm
  induction j with
  | zero => cases hij
  | succ j ih =>
    obtain ⟨⟨path', form'⟩, hform'⟩ : ∃ entry, e.chain.reverse[j]? = some entry :=
      ⟨_, List.getElem?_eq_getElem (hlength ▸ hj)⟩
    obtain ⟨stage, rest, hstage, hplan⟩ := exists_plan_after answers hstages hform'
    have hslots : ((start e ⟨stages, none⟩).after answers j).expression.slots = e.slots :=
      Expr.slots_congr (ahead_after answers hstages (Nat.le_of_succ_le hj)).1
    have hmem : ∀ {k : Nat} {path : Path} {form : EvaluableForm} {index : Nat},
        e.chain.reverse[k]? = some (path, form) → form.resultIndex? = some index →
        path ++ [index] ∈ ((start e ⟨stages, none⟩).after answers j).expression.slots := by
      intro k path form index hform hindex
      rw [hslots]
      exact Expr.mem_slots.mpr
        ⟨path, form, index, List.mem_reverse.mp (List.mem_of_getElem? hform), hindex, rfl⟩
    rw [after, (step_of_stageOf hplan hstage).2]
    rcases Nat.lt_succ_iff_lt_or_eq.mp hij with hij | rfl
    · cases hindex' : form'.resultIndex? with
      | none => exact ih hij (Nat.le_of_succ_le hj)
      | some index' =>
        exact (Expr.at?_replaceAt_slot (hmem hform' hindex') (hmem hform hindex)
          (slot_ne (Nat.ne_of_gt hij) hform' hform index' index) _).trans
          (ih hij (Nat.le_of_succ_le hj))
    · rw [hform] at hform'
      cases hform'
      obtain ⟨old, hold⟩ := Expr.exists_at?_of_mem_slots (hmem hform hindex)
      rw [hindex]
      exact Expr.at?_replaceAt_self hold _

end Pursuit

namespace Plan

/-! ### From the inside out -/

/-- The innermost wrong target on the chain is reported. -/
theorem ofExpr_eq_error_innermost_iff {e : Expr} {error : CellError} :
    ofExpr e = .error error ↔ ∃ outer path target body inner,
      e.chain = outer ++ (path, .assign target body) :: inner ∧ target.targets.length ≠ 1 ∧
        (∀ p t b, (p, EvaluableForm.assign t b) ∈ inner → t.targets.length = 1) ∧
        error = if target.targets = [] then .invalidTarget target
          else .multipleTargets target.targets := by
  rw [ofExpr_eq_error_iff, stagesOf_eq_error_iff]
  constructor
  · rintro ⟨inner, path, target, body, outer, hchain, htarget, hinner⟩
    obtain ⟨hlength, herror⟩ := singleTarget_eq_error_iff.mp htarget
    refine ⟨outer.reverse, path, target, body, inner.reverse, ?_, hlength, ?_, herror⟩
    · rw [← List.reverse_reverse e.chain, hchain]
      simp
    · exact fun p t b hmem => hinner p t b (List.mem_reverse.mp hmem)
  · rintro ⟨outer, path, target, body, inner, hchain, hlength, hinner, herror⟩
    refine ⟨inner.reverse, path, target, body, outer.reverse, ?_,
      singleTarget_eq_error_iff.mpr ⟨hlength, herror⟩,
      fun p t b hmem => hinner p t b (List.mem_reverse.mp hmem)⟩
    rw [hchain]
    simp

/-- A chain without a wrong target has a plan. -/
theorem exists_ofExpr_eq_some {e : Expr} (hchain : e.chain ≠ [])
    (htargets : ∀ path target body, (path, EvaluableForm.assign target body) ∈ e.chain →
      target.targets.length = 1) :
    ∃ stages, stagesOf e.chain.reverse = .ok stages ∧ ofExpr e = .ok (some ⟨stages, none⟩) := by
  have hempty : e.chain.isEmpty = false := by
    rw [← Bool.not_eq_true, List.isEmpty_iff]
    exact hchain
  cases hstages : stagesOf e.chain.reverse with
  | error error =>
    obtain ⟨path, target, body, hmem, hlength⟩ :=
      exists_ofExpr_eq_error_iff.mp ⟨error, ofExpr_eq_error_iff.mpr hstages⟩
    exact absurd (htargets path target body hmem) hlength
  | ok stages => exact ⟨stages, rfl, by simp [ofExpr, hempty, hstages, Except.map]⟩

/-- Building a plan fails with the error of the innermost assignment on the chain that does not name
exactly one target. Otherwise every form on the chain gets its value, from the inside out: what it
comes to is determined by the value of the form inside it, a result goes into a slot that exists,
and when nothing is left to do every slot holds the value of its form and nothing else has changed. -/
theorem ofExpr_inside_out (e : Expr) :
    ((∃ error, ofExpr e = .error error) ↔ ∃ path target body,
      (path, EvaluableForm.assign target body) ∈ e.chain ∧ target.targets.length ≠ 1) ∧
    (∀ error, ofExpr e = .error error ↔ ∃ outer path target body inner,
      e.chain = outer ++ (path, .assign target body) :: inner ∧ target.targets.length ≠ 1 ∧
        (∀ p t b, (p, EvaluableForm.assign t b) ∈ inner → t.targets.length = 1) ∧
        error = if target.targets = [] then .invalidTarget target
          else .multipleTargets target.targets) ∧
    (e.chain ≠ [] →
      (∀ path target body, (path, EvaluableForm.assign target body) ∈ e.chain →
        target.targets.length = 1) →
      ∃ plan, ofExpr e = .ok (some plan) ∧ ∀ answers : Nat → Expr,
        let pursuit := (Pursuit.start e plan).after answers
        let last := (pursuit e.chain.length).expression
        (∀ i, (pursuit i).action = .finished ↔ e.chain.length ≤ i) ∧
        (∀ i path form, e.chain.reverse[i]? = some (path, form) →
          e.at? (path ++ [form.operandIndex]) = some form.operand ∧
          form.Does ((Pursuit.start e plan).inner answers i) (pursuit i).action ∧
          ((pursuit i).assigned? answers).toList = form.names ∧
          ∀ index, form.resultIndex? = some index →
            (∃ old, (pursuit i).expression.at? (path ++ [index]) = some old) ∧
              last.at? (path ++ [index]) = some ((pursuit i).value answers)) ∧
        last.blanked = e.blanked) := by
  refine ⟨exists_ofExpr_eq_error_iff, fun error => ofExpr_eq_error_innermost_iff, ?_⟩
  intro hchain htargets
  obtain ⟨stages, hstages, hplan⟩ := exists_ofExpr_eq_some hchain htargets
  have hlength : e.chain.length = stages.length := by
    rw [← List.length_reverse, (stagesOf_eq_ok_iff.mp hstages).length_eq]
  refine ⟨⟨stages, none⟩, hplan, fun answers => ⟨?_, ?_, ?_⟩⟩
  · rw [hlength]
    exact Pursuit.action_eq_finished_iff hstages
  · intro i path form hform
    have hmem : (path, form) ∈ e.chain := List.mem_reverse.mp (List.mem_of_getElem? hform)
    have hi : i < stages.length := by
      have hlt := (List.getElem?_eq_some_iff.mp hform).1
      rwa [List.length_reverse, hlength] at hlt
    obtain ⟨stage, rest, hstage, hnow⟩ :=
      Pursuit.exists_plan_after answers hstages hform
    refine ⟨Expr.at?_operand hmem, ?_, (Pursuit.step_of_stageOf hnow hstage).1, ?_⟩
    · refine Pursuit.does_of_stageOf hnow hstage fun hfirst => ?_
      cases i with
      | zero => exact Expr.at?_operand hmem
      | succ i => cases hfirst
    · intro index hindex
      refine ⟨Expr.exists_at?_of_mem_slots ?_, ?_⟩
      · rw [Expr.slots_congr (Pursuit.ahead_after answers hstages (Nat.le_of_lt hi)).1]
        exact Expr.mem_slots.mpr ⟨path, form, index, hmem, hindex, rfl⟩
      · rw [hlength]
        exact Pursuit.at?_after hstages hform hindex hi (Nat.le_refl _)
  · rw [hlength]
    exact (Pursuit.ahead_after answers hstages (Nat.le_refl _)).1

/-- `a := (b := x + y =)`: the body of the inner assignment is asked for, and its value is
evaluated numerically, and both names get a value. -/
theorem ofExpr_inside_out_nested :
    let sum := Expr.app "Add" [.symbol "x", .symbol "y"]
    let e := Expr.app "Assign"
      [.symbol "a", .app "Equal" [.app "Assign" [.symbol "b", sum], Expr.missing]]
    ∃ plan, ofExpr e = .ok (some plan) ∧ ∀ answers : Nat → Expr,
      (((Pursuit.start e plan).after answers) 3).action = .finished ∧
        (((Pursuit.start e plan).after answers) 3).expression.blanked = e.blanked := by
  intro sum e
  have hchain : e.chain = [([], .assign (.symbol "a") _), ([1], .inline .numeric _ _),
      ([1, 0], .assign (.symbol "b") sum)] := rfl
  have htargets : ∀ path target body, (path, EvaluableForm.assign target body) ∈ e.chain →
      target.targets.length = 1 := by
    intro path target body hmem
    rw [hchain] at hmem
    simp only [List.mem_cons, Prod.mk.injEq, EvaluableForm.assign.injEq, reduceCtorEq, and_false,
      false_or, List.not_mem_nil, or_false] at hmem
    rcases hmem with ⟨-, rfl, -⟩ | ⟨-, rfl, -⟩ <;> rfl
  obtain ⟨plan, hplan, hcourse⟩ := (ofExpr_inside_out e).2.2 (by rw [hchain]; simp) htargets
  refine ⟨plan, hplan, fun answers => ?_⟩
  obtain ⟨hfinished, -, hblanked⟩ := hcourse answers
  exact ⟨(hfinished 3).mpr (Nat.le_refl 3), hblanked⟩

end Plan

end MathCanvas
