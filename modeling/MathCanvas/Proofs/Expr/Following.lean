import MathCanvas.Proofs.Expr.Requests

/-!
# Following a plan

A plan is followed stage by stage: a request takes a value that is *given* for it, and an assignment
takes the value that the plan carries. `Plan.Leads` says what this can lead to: what is left of the
plan, what has become of the expression, and which values were assigned to which names. To follow the
plan of an expression to its end is to recalculate the expression.

In the end every name that the expression writes has got a value (`Plan.Leads.exists_lookup`), and it
does not matter what the result slots held in the beginning (`Plan.Leads.of_blanked`).
-/

namespace MathCanvas

/-! ### The innermost operand -/

namespace Expr

variable {a b : Expr} {path : Path} {form : EvaluableForm}

/-- An inert expression is its own blanked form. -/
theorem blanked_of_inert (hchain : a.chain = []) : a.blanked = a := by
  induction a using chain_induction with
  | assign target body => rw [chain_assign] at hchain; cases hchain
  | equal operand result => rw [chain_equal] at hchain; cases hchain
  | evaluate operand directive result => rw [chain_evaluate] at hchain; cases hchain
  | inert e _ hblanked => exact hblanked

/-- An expression that differs from an inert one at most in its results is the same. -/
theorem eq_of_inert (hchain : a.chain = []) (h : a.blanked = b.blanked) : b = a := by
  rw [blanked_of_inert hchain] at h
  exact eq_of_blanked_inert hchain h.symm

/-- The operand of the innermost form holds no results. -/
theorem at?_innermost_congr (h : a.blanked = b.blanked)
    (hlast : a.chain.getLast? = some (path, form)) :
    a.at? (path ++ [form.operandIndex]) = b.at? (path ++ [form.operandIndex]) := by
  induction a using chain_induction generalizing b path with
  | assign target body ih =>
    obtain ⟨body', rfl, hbody⟩ := eq_assign_of_blanked h.symm
    rw [chain_assign] at hlast
    rcases getLast?_below hlast with ⟨hnil, rfl, rfl⟩ | ⟨inner, rfl, hinner⟩
    · rw [eq_of_inert hnil hbody.symm]
    · exact ih hbody.symm hinner
  | equal operand result ih =>
    obtain ⟨operand', result', rfl, hoperand⟩ := eq_equal_of_blanked h.symm
    rw [chain_equal] at hlast
    rcases getLast?_below hlast with ⟨hnil, rfl, rfl⟩ | ⟨inner, rfl, hinner⟩
    · rw [eq_of_inert hnil hoperand.symm]
      rfl
    · exact ih hoperand.symm hinner
  | evaluate operand directive result ih =>
    obtain ⟨operand', result', rfl, hoperand⟩ := eq_evaluate_of_blanked h.symm
    rw [chain_evaluate] at hlast
    rcases getLast?_below hlast with ⟨hnil, rfl, rfl⟩ | ⟨inner, rfl, hinner⟩
    · rw [eq_of_inert hnil hoperand.symm]
      rfl
    · exact ih hoperand.symm hinner
  | inert e hchain _ => simp [hchain] at hlast

/-- Two expressions that differ at most in their results are the same if they have the same results. -/
theorem eq_of_at?_slots (h : a.blanked = b.blanked)
    (hslots : ∀ slot ∈ a.slots, a.at? slot = b.at? slot) : a = b := by
  induction a using chain_induction generalizing b with
  | assign target body ih =>
    obtain ⟨body', rfl, hbody⟩ := eq_assign_of_blanked h.symm
    rw [slots_assign, List.forall_mem_map] at hslots
    rw [ih hbody.symm hslots]
  | equal operand result ih =>
    obtain ⟨operand', result', rfl, hoperand⟩ := eq_equal_of_blanked h.symm
    rw [slots_equal, List.forall_mem_cons, List.forall_mem_map] at hslots
    have hresult : some result = some result' := by
      have hslot := hslots.1
      rwa [at?_cons rfl, at?_cons rfl, at?_nil, at?_nil] at hslot
    rw [ih hoperand.symm hslots.2, Option.some.inj hresult]
  | evaluate operand directive result ih =>
    obtain ⟨operand', result', rfl, hoperand⟩ := eq_evaluate_of_blanked h.symm
    rw [slots_evaluate, List.forall_mem_cons, List.forall_mem_map] at hslots
    have hresult : some result = some result' := by
      have hslot := hslots.1
      rwa [at?_cons rfl, at?_cons rfl, at?_nil, at?_nil] at hslot
    rw [ih hoperand.symm hslots.2, Option.some.inj hresult]
  | inert e hchain _ => exact (eq_of_inert hchain h).symm

end Expr

/-! ### Stages that are done -/

namespace Stage

/-- The name that a stage assigns. -/
def target? (stage : Stage) : Option String :=
  match stage.kind with
  | .assign target => some target
  | .inline _ _ => none

/-- The result slot that a stage fills. -/
def slot? (stage : Stage) : Option Path :=
  match stage.kind with
  | .assign _ => none
  | .inline _ resultPath => some resultPath

end Stage

namespace Plan

variable {plan : Plan} {a b e now value : Expr} {stages : List Stage} {name : String}
  {values : List (String × Expr)} {gives gives' : Expr → Expr → Prop}

/-- A plan of an expression of which the first stages are done. -/
structure After (plan : Plan) (e : Expr) (stages : List Stage) : Prop where
  all : stagesOf e.chain.reverse = .ok (stages ++ plan.stages)
  carried : plan.carried = none → stages = []

theorem after_of_ofExpr (h : ofExpr e = .ok (some plan)) : plan.After e [] := by
  obtain ⟨hstages, -, -⟩ := stagesOf_of_ofExpr h
  exact ⟨hstages, fun _ => rfl⟩

theorem After.fits (h : plan.After e stages) : plan.Fits e := ⟨_, h.all, List.suffix_append _ _⟩

/-- One more stage is done. -/
theorem After.complete (h : plan.After e stages) (value : Expr) :
    ∃ stages', (plan.complete e value).2.2.After (plan.complete e value).2.1 stages' ∧
      stages'.filterMap Stage.target? =
        stages.filterMap Stage.target? ++ (plan.complete e value).1.toList := by
  have hblanked := (h.fits.complete value).1
  unfold Plan.complete at hblanked ⊢
  cases hplan : plan.stages with
  | nil => exact ⟨stages, h, by simp⟩
  | cons stage rest =>
    have hall : stagesOf e.chain.reverse = .ok ((stages ++ [stage]) ++ rest) := by
      rw [h.all, hplan, List.append_assoc, List.singleton_append]
    rw [hplan] at hblanked
    simp only at hblanked ⊢
    split
    · rename_i mode resultPath hkind
      rw [hkind] at hblanked
      refine ⟨stages ++ [stage], ⟨?_, by simp⟩, ?_⟩
      · rw [stagesOf_congr hblanked, hall]
      · simp [Stage.target?, hkind]
    · rename_i target hkind
      exact ⟨stages ++ [stage], ⟨hall, by simp⟩, by simp [Stage.target?, hkind]⟩

/-- Every form on the chain has its stage. -/
theorem exists_stage {path : Path} {form : EvaluableForm}
    (hstages : stagesOf e.chain.reverse = .ok stages) (hmem : (path, form) ∈ e.chain) :
    ∃ stage ∈ stages, stageOf path form = .ok stage := by
  obtain ⟨i, hi, hentry⟩ := List.getElem_of_mem (List.mem_reverse.mpr hmem)
  have hall := stagesOf_eq_ok_iff.mp hstages
  have hi' : i < stages.length := hall.length_eq ▸ hi
  refine ⟨stages[i], List.getElem_mem hi', ?_⟩
  simpa only [List.get_eq_getElem, hentry] using hall.get hi hi'

/-- Every result slot is filled by a stage. -/
theorem mem_slots_of_stagesOf {slot : Path} (hstages : stagesOf e.chain.reverse = .ok stages)
    (hslot : slot ∈ e.slots) : slot ∈ stages.filterMap Stage.slot? := by
  obtain ⟨path, form, i, hmem, hindex, rfl⟩ := Expr.mem_slots.mp hslot
  obtain ⟨stage, hstage, hform⟩ := exists_stage hstages hmem
  refine List.mem_filterMap.mpr ⟨stage, hstage, ?_⟩
  cases form with
  | assign => cases hindex
  | inline mode operand result =>
    cases hform
    simp [Stage.slot?, hindex]

/-- Every name that is written is assigned by a stage. -/
theorem mem_targets_of_stagesOf (hstages : stagesOf e.chain.reverse = .ok stages)
    (hname : name ∈ e.writtenNames) : name ∈ stages.filterMap Stage.target? := by
  rw [Expr.writtenNames, mem_sortNames, List.mem_flatMap] at hname
  obtain ⟨⟨path, form⟩, hmem, hname⟩ := hname
  obtain ⟨stage, hstage, hform⟩ := exists_stage hstages hmem
  refine List.mem_filterMap.mpr ⟨stage, hstage, ?_⟩
  cases form with
  | inline => cases hname
  | assign target body =>
    obtain ⟨n, htarget, rfl⟩ := stageOf_eq_ok_assign_iff.mp hform
    obtain rfl : name = n := by simpa [htarget] using hname
    rfl

/-- What a plan begins with does not depend on the results in the expression. -/
theorem next_congr (h : ofExpr a = .ok (some plan)) (hsame : a.blanked = b.blanked) :
    plan.next a = plan.next b := by
  obtain ⟨hstages, -, hne⟩ := stagesOf_of_ofExpr h
  obtain ⟨⟨path, form⟩, hlast⟩ : ∃ entry, a.chain.getLast? = some entry :=
    ⟨_, List.getLast?_eq_some_getLast hne⟩
  have hform : a.chain.reverse[0]? = some (path, form) := by
    rw [← List.head?_eq_getElem?, List.head?_reverse, hlast]
  have hoperand := Expr.at?_innermost_congr hsame hlast
  obtain ⟨rest, hrest⟩ : ∃ rest, a.chain.reverse = (path, form) :: rest := by
    cases hchain : a.chain.reverse with
    | nil => simp [hchain] at hform
    | cons entry rest => exact ⟨rest, by simpa [hchain] using hform⟩
  rw [hrest, stagesOf] at hstages
  cases hstage : stageOf path form with
  | error error => simp [hstage] at hstages
  | ok stage =>
    have hpath : stage.operandPath = path ++ [form.operandIndex] := by
      cases form with
      | inline => cases hstage; rfl
      | assign target body =>
        obtain ⟨n, -, rfl⟩ := stageOf_eq_ok_assign_iff.mp hstage
        rfl
    cases hlater : stagesOf rest with
    | error error => simp [hstage, hlater, Except.map] at hstages
    | ok later =>
      rw [hstage, hlater] at hstages
      have hplan : plan.stages = stage :: later := (Except.ok.inj hstages).symm
      simp only [next, hplan, hpath, hoperand]

/-- What a plan that carries a value does next does not depend on the expression. -/
theorem next_of_carried (h : plan.carried ≠ none) (a b : Expr) : plan.next a = plan.next b := by
  obtain ⟨value, hvalue⟩ := Option.ne_none_iff_exists'.mp h
  unfold next
  rw [hvalue]
  cases plan.stages with
  | nil => rfl
  | cons stage rest => cases hkind : stage.kind <;> simp only [hkind, Option.getD_some]

/-! ### From stage to stage -/

/-- A value that the next stage takes: one that is given for a request, or the one that is
assigned. -/
def Takes (gives : Expr → Expr → Prop) (plan : Plan) (e value : Expr) : Prop :=
  match plan.next e with
  | .request expression => gives expression value
  | .assign _ carried => value = carried
  | .finished => False

/-- What following the plan of an expression `e` can lead to: a plan for the stages that are left, the
expression with the results that have come in, and the values that were assigned, the last one in
front. -/
inductive Leads (gives : Expr → Expr → Prop) (e : Expr) :
    Plan → Expr → List (String × Expr) → Prop
  | start {plan : Plan} (h : ofExpr e = .ok (some plan)) : Leads gives e plan e []
  | stage {plan : Plan} {now : Expr} {values : List (String × Expr)} {value : Expr}
      (h : Leads gives e plan now values) (takes : plan.Takes gives now value) :
      Leads gives e (plan.complete now value).2.2 (plan.complete now value).2.1
        ((plan.complete now value).1.toList.map (·, value) ++ values)

theorem Takes.mono (h : plan.Takes gives e value)
    (hgives : ∀ request value, gives request value → gives' request value) :
    plan.Takes gives' e value := by
  unfold Takes at h ⊢
  split at h
  · exact hgives _ _ h
  · exact h
  · exact h

theorem Takes.exists_stages (h : plan.Takes gives e value) :
    ∃ stage rest, plan.stages = stage :: rest := by
  cases hplan : plan.stages with
  | cons stage rest => exact ⟨stage, rest, rfl⟩
  | nil => simp [Takes, next, hplan] at h

namespace Leads

theorem mono (h : Leads gives e plan now values)
    (hgives : ∀ request value, gives request value → gives' request value) :
    Leads gives' e plan now values := by
  induction h with
  | start hplan => exact .start hplan
  | stage _ takes ih => exact .stage ih (takes.mono hgives)

theorem blanked (h : Leads gives e plan now values) :
    now.blanked = e.blanked ∧ ∃ stages, plan.After now stages ∧
      stages.filterMap Stage.target? = (values.map (·.1)).reverse := by
  induction h with
  | start hplan => exact ⟨rfl, [], after_of_ofExpr hplan, rfl⟩
  | @stage plan now values value _ _ ih =>
    obtain ⟨hblanked, stages, hafter, htargets⟩ := ih
    obtain ⟨stages', hafter', htargets'⟩ := hafter.complete value
    refine ⟨(hafter.fits.complete value).1.trans hblanked, stages', hafter', ?_⟩
    rw [htargets', htargets]
    cases (plan.complete now value).1 <;> simp

/-- When no stage is left, every name that is written has got a value. -/
theorem exists_lookup (h : Leads gives e plan now values) (hdone : plan.stages = [])
    (hname : name ∈ now.writtenNames) : ∃ value, values.lookup name = some value := by
  obtain ⟨-, stages, hafter, htargets⟩ := h.blanked
  have hall := hafter.all
  rw [hdone, List.append_nil] at hall
  have hmem := mem_targets_of_stagesOf hall hname
  rw [htargets, List.mem_reverse] at hmem
  obtain ⟨entry, hentry, rfl⟩ := List.mem_map.mp hmem
  refine Option.ne_none_iff_exists'.mp fun hnone => ?_
  simpa using List.lookup_eq_none_iff.mp hnone entry hentry

/-- The results that the expression held in the beginning do not matter, except for those of the
stages that are left. -/
theorem exists_of_blanked (h : Leads gives a plan now values) (hsame : a.blanked = b.blanked) :
    ∃ now', Leads gives b plan now' values ∧ now.blanked = now'.blanked ∧
      (plan.carried = none → plan.next now = plan.next now') ∧
      ∀ slot ∈ now.slots, slot ∉ plan.stages.filterMap Stage.slot? →
        now.at? slot = now'.at? slot := by
  induction h with
  | start hplan =>
    obtain ⟨hstages, -, -⟩ := stagesOf_of_ofExpr hplan
    exact ⟨b, .start (ofExpr_congr hsame ▸ hplan), hsame, fun _ => next_congr hplan hsame,
      fun slot hslot hdone => absurd (mem_slots_of_stagesOf hstages hslot) hdone⟩
  | @stage plan now values value hleads htakes ih =>
    obtain ⟨now', hleads', hblanked, hnext, hslots⟩ := ih
    have hsame : plan.next now = plan.next now' := by
      by_cases hcarried : plan.carried = none
      · exact hnext hcarried
      · exact next_of_carried hcarried now now'
    have htakes' : plan.Takes gives now' value := by
      unfold Takes at htakes ⊢
      rwa [← hsame]
    obtain ⟨stage, rest, hstages⟩ := htakes.exists_stages
    obtain ⟨-, stages, hafter, -⟩ := hleads.blanked
    have hfits := hafter.fits
    have hleads := Leads.stage hleads' htakes'
    obtain ⟨_, carried⟩ := plan
    cases hstages
    obtain ⟨operandPath, kind⟩ := stage
    cases kind with
    | assign target =>
      refine ⟨now', hleads, hblanked, by simp [complete], fun slot hslot hdone => ?_⟩
      exact hslots slot hslot hdone
    | inline mode resultPath =>
      have hpath : resultPath ∈ now.slots := hfits.mem_slots List.mem_cons_self
      have hpath' : resultPath ∈ now'.slots := Expr.slots_congr hblanked ▸ hpath
      have hfilled := Expr.blanked_replaceAt hpath value
      have hfilled' := Expr.blanked_replaceAt hpath' value
      refine ⟨now'.replaceAt resultPath value, hleads, hfilled.trans (hblanked.trans hfilled'.symm),
        by simp [complete], fun slot hslot hdone => ?_⟩
      simp only [complete] at hslot hdone ⊢
      rw [Expr.slots_congr hfilled] at hslot
      by_cases hslot' : resultPath = slot
      · subst hslot'
        obtain ⟨old, hold⟩ := Expr.exists_at?_of_mem_slots hpath
        obtain ⟨old', hold'⟩ := Expr.exists_at?_of_mem_slots hpath'
        rw [Expr.at?_replaceAt_self hold, Expr.at?_replaceAt_self hold']
      · rw [Expr.at?_replaceAt_slot hpath hslot hslot',
          Expr.at?_replaceAt_slot hpath' (Expr.slots_congr hblanked ▸ hslot) hslot']
        refine hslots slot hslot fun hmem => ?_
        rcases List.mem_cons.mp hmem with rfl | hmem
        · exact hslot' rfl
        · exact hdone hmem

/-- It does not matter what the result slots held in the beginning. -/
theorem of_blanked (h : Leads gives a plan now values) (hsame : a.blanked = b.blanked)
    (hdone : plan.stages = []) : Leads gives b plan now values := by
  obtain ⟨now', hleads, hblanked, -, hslots⟩ := h.exists_of_blanked hsame
  rwa [Expr.eq_of_at?_slots hblanked fun slot hslot => hslots slot hslot (by simp [hdone])]

end Leads

end Plan

end MathCanvas
