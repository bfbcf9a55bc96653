import MathCanvas.Cell.Plan

/-!
# Results along the chain

Evaluating an expression fills the result slots of the inline evaluations on its chain, and nothing
else. `Expr.blanked` forgets what these slots hold, so that two expressions with the same blanked
form differ at most in them. Filling a slot (`blanked_replaceAt`) and emptying all of them
(`blanked_stripResults`) keep the blanked form.

The plan of an expression depends on its blanked form alone (`stagesOf_congr`). A plan *fits* an
expression if its stages are the last ones of that plan; recording the value of a stage in a plan
that fits fills a slot of the chain (`Plan.Fits.complete`), while one that does not may put the
value anywhere.
-/

namespace MathCanvas

namespace Expr

/-- The expression with the placeholder in every result slot along its chain, whatever is there. -/
def blanked : Expr → Expr
  | .app head [first, second] =>
    if head == "Assign" then .app head [first, blanked second]
    else if head == "Equal" then .app head [blanked first, missing]
    else .app head [first, second]
  | .app head [operand, directive, result] =>
    if head == "Evaluate" then .app head [blanked operand, directive, missing]
    else .app head [operand, directive, result]
  | e => e

/-! ### The chain -/

theorem chainFrom_append (pre path : Path) (e : Expr) :
    chainFrom (pre ++ path) e = (chainFrom path e).map fun entry => (pre ++ entry.1, entry.2) := by
  fun_induction chainFrom path e
  all_goals simp_all [chainFrom]

/-- The chain of an argument, seen from the application. -/
theorem chainFrom_singleton (i : Nat) (e : Expr) :
    chainFrom [i] e = e.chain.map fun entry => (i :: entry.1, entry.2) :=
  chainFrom_append [i] [] e

theorem chain_assign (target body : Expr) :
    (app "Assign" [target, body]).chain =
      ([], .assign target body) :: body.chain.map fun entry => (1 :: entry.1, entry.2) := by
  rw [← chainFrom_singleton]
  rfl

theorem chain_equal (operand result : Expr) :
    (app "Equal" [operand, result]).chain =
      ([], .inline .numeric operand result)
        :: operand.chain.map fun entry => (0 :: entry.1, entry.2) := by
  rw [← chainFrom_singleton]
  rfl

theorem chain_evaluate (operand directive result : Expr) :
    (app "Evaluate" [operand, directive, result]).chain =
      ([], .inline (.symbolic directive.directive?) operand result)
        :: operand.chain.map fun entry => (0 :: entry.1, entry.2) := by
  rw [← chainFrom_singleton]
  rfl

/-- Induction along the chain: an expression is an assignment, one of the two inline evaluations, or
has no chain and is its own blanked form. -/
@[elab_as_elim]
theorem chain_induction {motive : Expr → Prop}
    (assign : ∀ target body, motive body → motive (app "Assign" [target, body]))
    (equal : ∀ operand result, motive operand → motive (app "Equal" [operand, result]))
    (evaluate : ∀ operand directive result, motive operand →
      motive (app "Evaluate" [operand, directive, result]))
    (inert : ∀ e : Expr, e.chain = [] → e.blanked = e → motive e) (e : Expr) : motive e := by
  fun_induction blanked e with
  | case1 head first second hhead ih => exact eq_of_beq hhead ▸ assign first second ih
  | case2 head first second _ hhead ih => exact eq_of_beq hhead ▸ equal first second ih
  | case3 head first second hassign hequal =>
    exact inert _ (by simp [chain, chainFrom, hassign, hequal]) (by simp [blanked, hassign, hequal])
  | case4 head operand directive result hhead ih =>
    exact eq_of_beq hhead ▸ evaluate operand directive result ih
  | case5 head operand directive result hhead =>
    exact inert _ (by simp [chain, chainFrom, hhead]) (by simp [blanked, hhead])
  | case6 e htwo hthree =>
    refine inert e ?_ ?_
    · unfold chain
      rw [chainFrom]
      · exact htwo
      · exact hthree
    · rw [blanked]
      · exact htwo
      · exact hthree

theorem blanked_assign (target body : Expr) :
    (app "Assign" [target, body]).blanked = app "Assign" [target, body.blanked] := rfl

theorem blanked_equal (operand result : Expr) :
    (app "Equal" [operand, result]).blanked = app "Equal" [operand.blanked, missing] := rfl

theorem blanked_evaluate (operand directive result : Expr) :
    (app "Evaluate" [operand, directive, result]).blanked =
      app "Evaluate" [operand.blanked, directive, missing] := rfl

end Expr

/-- A form without its operand and its result. -/
def EvaluableForm.blanked : EvaluableForm → EvaluableForm
  | .assign target _ => .assign target .missing
  | .inline mode _ _ => .inline mode .missing .missing

theorem EvaluableForm.resultIndex?_blanked (form : EvaluableForm) :
    form.blanked.resultIndex? = form.resultIndex? := by
  rcases form with _ | ⟨_ | _, _, _⟩ <;> rfl

namespace Expr

/-- The chain without operands and results. -/
def skeleton (e : Expr) : List (Path × EvaluableForm) :=
  e.chain.map fun entry => (entry.1, entry.2.blanked)

theorem skeleton_blanked (e : Expr) : e.blanked.skeleton = e.skeleton := by
  have hbelow : ∀ (i : Nat) {a b : Expr}, a.skeleton = b.skeleton →
      ((a.chain.map fun entry => (i :: entry.1, entry.2)).map
          fun entry => (entry.1, entry.2.blanked)) =
        (b.chain.map fun entry => (i :: entry.1, entry.2)).map
          fun entry => (entry.1, entry.2.blanked) := by
    intro i a b h
    have hpaths := congrArg (List.map fun entry => (i :: entry.1, entry.2)) h
    simpa [skeleton, List.map_map, Function.comp_def] using hpaths
  unfold skeleton at hbelow ⊢
  induction e using chain_induction with
  | assign target body ih =>
    rw [blanked_assign, chain_assign, chain_assign, List.map_cons, List.map_cons, hbelow 1 ih]
    rfl
  | equal operand result ih =>
    rw [blanked_equal, chain_equal, chain_equal, List.map_cons, List.map_cons, hbelow 0 ih]
    rfl
  | evaluate operand directive result ih =>
    rw [blanked_evaluate, chain_evaluate, chain_evaluate, List.map_cons, List.map_cons,
      hbelow 0 ih]
    rfl
  | inert e hchain hblanked => rw [hblanked]

theorem skeleton_congr {a b : Expr} (h : a.blanked = b.blanked) : a.skeleton = b.skeleton := by
  rw [← skeleton_blanked a, h, skeleton_blanked b]

/-! ### Filling and emptying result slots -/

/-- The paths of all result slots along the chain. -/
def slots (e : Expr) : List Path :=
  e.skeleton.filterMap fun entry => entry.2.resultIndex?.map fun i => entry.1 ++ [i]

theorem mem_slots {e : Expr} {slot : Path} : slot ∈ e.slots ↔
    ∃ path form i, (path, form) ∈ e.chain ∧ form.resultIndex? = some i ∧ slot = path ++ [i] := by
  simp only [slots, skeleton, List.mem_filterMap, List.mem_map, Option.map_eq_some_iff]
  constructor
  · rintro ⟨-, ⟨⟨path, form⟩, hmem, rfl⟩, i, hi, rfl⟩
    exact ⟨path, form, i, hmem, by rw [← form.resultIndex?_blanked, hi], rfl⟩
  · rintro ⟨path, form, i, hmem, hi, rfl⟩
    exact ⟨_, ⟨(path, form), hmem, rfl⟩, i, by rw [form.resultIndex?_blanked, hi], rfl⟩

theorem replaceAt_cons {head : String} {args : List Expr} {i : Nat} {a : Expr}
    (ha : args[i]? = some a) (path : Path) (new : Expr) :
    (app head args).replaceAt (i :: path) new =
      app head (args.set i (a.replaceAt path new)) := by
  unfold replaceAt
  rw [replaceAt?, ha]
  simp only
  cases a.replaceAt? path new with
  | some a' => rfl
  | none =>
    obtain ⟨hi, rfl⟩ := List.getElem?_eq_some_iff.mp ha
    simp

/-- Whatever is put into a result slot of the chain, the blanked form stays. -/
theorem blanked_replaceAt {e : Expr} {slot : Path} (hslot : slot ∈ e.slots) (new : Expr) :
    (e.replaceAt slot new).blanked = e.blanked := by
  obtain ⟨path, form, i, hmem, hi, rfl⟩ := mem_slots.mp hslot
  clear hslot
  induction e using chain_induction generalizing path with
  | assign target body ih =>
    rw [chain_assign] at hmem
    rcases List.mem_cons.mp hmem with heq | hmem
    · cases heq
      cases hi
    · obtain ⟨⟨rest, form'⟩, hrest, heq⟩ := List.mem_map.mp hmem
      cases heq
      rw [List.cons_append, replaceAt_cons (a := body) rfl]
      exact congrArg (fun b => app "Assign" [target, b]) (ih rest hrest)
  | equal operand result ih =>
    rw [chain_equal] at hmem
    rcases List.mem_cons.mp hmem with heq | hmem
    · cases heq
      cases hi
      rfl
    · obtain ⟨⟨rest, form'⟩, hrest, heq⟩ := List.mem_map.mp hmem
      cases heq
      rw [List.cons_append, replaceAt_cons (a := operand) rfl]
      exact congrArg (fun o => app "Equal" [o, missing]) (ih rest hrest)
  | evaluate operand directive result ih =>
    rw [chain_evaluate] at hmem
    rcases List.mem_cons.mp hmem with heq | hmem
    · cases heq
      cases hi
      rfl
    · obtain ⟨⟨rest, form'⟩, hrest, heq⟩ := List.mem_map.mp hmem
      cases heq
      rw [List.cons_append, replaceAt_cons (a := operand) rfl]
      exact congrArg (fun o => app "Evaluate" [o, directive, missing]) (ih rest hrest)
  | inert e hchain hblanked =>
    rw [hchain] at hmem
    cases hmem

/-- Fills result slots, one after the other. -/
def fill (e : Expr) (values : List (Path × Expr)) : Expr :=
  values.foldl (fun e entry => e.replaceAt entry.1 entry.2) e

/-- The slots stay the same ones as the first of them are filled. -/
theorem blanked_fill {values : List (Path × Expr)} :
    ∀ {e : Expr}, (∀ entry ∈ values, entry.1 ∈ e.slots) → (e.fill values).blanked = e.blanked := by
  induction values with
  | nil => exact fun _ => rfl
  | cons entry rest ih =>
    intro e h
    have hfirst := blanked_replaceAt (h entry List.mem_cons_self) entry.2
    rw [fill, List.foldl_cons, ← fill, ih, hfirst]
    intro later hlater
    rw [slots, skeleton_congr hfirst]
    exact h later (List.mem_cons_of_mem _ hlater)

theorem blanked_stripResults (e : Expr) : e.stripResults.blanked = e.blanked := by
  have hfill : e.stripResults = e.fill (e.resultPaths.map fun path => (path, missing)) := by
    rw [fill, List.foldl_map]
    rfl
  rw [hfill]
  refine blanked_fill fun entry hentry => ?_
  obtain ⟨path, hpath, rfl⟩ := List.mem_map.mp hentry
  obtain ⟨⟨path', form⟩, hmem, hsome⟩ := List.mem_filterMap.mp hpath
  dsimp only at hsome
  split at hsome
  · obtain ⟨i, hi, rfl⟩ := Option.map_eq_some_iff.mp hsome
    exact mem_slots.mpr ⟨path', form, i, hmem, hi, rfl⟩
  · cases hsome

/-- Slots of an argument, seen from the application. -/
theorem fill_below {head : String} {args : List Expr} {i : Nat} (values : List (Path × Expr)) :
    ∀ {a : Expr}, args[i]? = some a →
      (app head args).fill (values.map fun entry => (i :: entry.1, entry.2)) =
        app head (args.set i (a.fill values)) := by
  induction values generalizing args with
  | nil =>
    intro a ha
    obtain ⟨hi, rfl⟩ := List.getElem?_eq_some_iff.mp ha
    simp [fill]
  | cons entry rest ih =>
    intro a ha
    have hi := (List.getElem?_eq_some_iff.mp ha).1
    have hfirst : (app head args).fill ((entry :: rest).map fun entry => (i :: entry.1, entry.2)) =
        ((app head args).replaceAt (i :: entry.1) entry.2).fill
          (rest.map fun entry => (i :: entry.1, entry.2)) := rfl
    rw [hfirst, replaceAt_cons ha, ih (List.getElem?_set_self hi), List.set_set]
    rfl

theorem slots_below {e a : Expr} {i : Nat} {top : EvaluableForm}
    (hchain : e.chain = ([], top) :: a.chain.map fun entry => (i :: entry.1, entry.2)) {slot : Path}
    (hslot : slot ∈ a.slots) : i :: slot ∈ e.slots := by
  obtain ⟨path, form, index, hmem, hindex, rfl⟩ := mem_slots.mp hslot
  refine mem_slots.mpr ⟨i :: path, form, index, ?_, hindex, rfl⟩
  rw [hchain]
  exact List.mem_cons_of_mem _ (List.mem_map.mpr ⟨(path, form), hmem, rfl⟩)

theorem eq_of_blanked_inert {a b : Expr} (hchain : a.chain = []) (h : b.blanked = a) : b = a := by
  induction b using chain_induction with
  | assign target body => rw [← h, blanked_assign, chain_assign] at hchain; cases hchain
  | equal operand result => rw [← h, blanked_equal, chain_equal] at hchain; cases hchain
  | evaluate operand directive result =>
    rw [← h, blanked_evaluate, chain_evaluate] at hchain
    cases hchain
  | inert e _ hblanked => rw [← h, hblanked]

theorem eq_assign_of_blanked {b target body : Expr} (h : b.blanked = app "Assign" [target, body]) :
    ∃ body', b = app "Assign" [target, body'] ∧ body'.blanked = body := by
  induction b using chain_induction with
  | assign target' body' =>
    cases h
    exact ⟨body', rfl, rfl⟩
  | equal operand result => simp [blanked_equal] at h
  | evaluate operand directive result => simp [blanked_evaluate] at h
  | inert e hchain hblanked =>
    rw [← hblanked, h, chain_assign] at hchain
    cases hchain

theorem eq_equal_of_blanked {b operand : Expr} (h : b.blanked = app "Equal" [operand, missing]) :
    ∃ operand' result, b = app "Equal" [operand', result] ∧ operand'.blanked = operand := by
  induction b using chain_induction with
  | assign target body => simp [blanked_assign] at h
  | equal operand' result =>
    cases h
    exact ⟨operand', result, rfl, rfl⟩
  | evaluate operand directive result => simp [blanked_evaluate] at h
  | inert e hchain hblanked =>
    rw [← hblanked, h, chain_equal] at hchain
    cases hchain

theorem eq_evaluate_of_blanked {b operand directive : Expr}
    (h : b.blanked = app "Evaluate" [operand, directive, missing]) :
    ∃ operand' result, b = app "Evaluate" [operand', directive, result] ∧
      operand'.blanked = operand := by
  induction b using chain_induction with
  | assign target body => simp [blanked_assign] at h
  | equal operand result => simp [blanked_equal] at h
  | evaluate operand' directive' result =>
    cases h
    exact ⟨operand', result, rfl, rfl⟩
  | inert e hchain hblanked =>
    rw [← hblanked, h, chain_evaluate] at hchain
    cases hchain

/-- Two expressions with the same blanked form differ at most in what the result slots hold. -/
theorem blanked_eq_iff {a b : Expr} : a.blanked = b.blanked ↔
    ∃ values : List (Path × Expr), (∀ entry ∈ values, entry.1 ∈ a.slots) ∧ b = a.fill values := by
  constructor
  · induction a using chain_induction generalizing b with
    | assign target body ih =>
      intro h
      obtain ⟨body', rfl, hbody⟩ := eq_assign_of_blanked h.symm
      obtain ⟨values, hvalues, rfl⟩ := ih hbody.symm
      refine ⟨values.map fun entry => (1 :: entry.1, entry.2), ?_,
        (fill_below values (rfl : [target, body][1]? = some body)).symm⟩
      intro entry hentry
      obtain ⟨inner, hinner, rfl⟩ := List.mem_map.mp hentry
      exact slots_below (chain_assign target body) (hvalues inner hinner)
    | equal operand result ih =>
      intro h
      obtain ⟨operand', result', rfl, hoperand⟩ := eq_equal_of_blanked h.symm
      obtain ⟨values, hvalues, rfl⟩ := ih hoperand.symm
      refine ⟨([1], result') :: values.map fun entry => (0 :: entry.1, entry.2), ?_,
        (fill_below values (rfl : [operand, result'][0]? = some operand)).symm⟩
      intro entry hentry
      rcases List.mem_cons.mp hentry with rfl | hentry
      · refine mem_slots.mpr ⟨[], .inline .numeric operand result, 1, ?_, rfl, rfl⟩
        rw [chain_equal]
        exact List.mem_cons_self
      · obtain ⟨inner, hinner, rfl⟩ := List.mem_map.mp hentry
        exact slots_below (chain_equal operand result) (hvalues inner hinner)
    | evaluate operand directive result ih =>
      intro h
      obtain ⟨operand', result', rfl, hoperand⟩ := eq_evaluate_of_blanked h.symm
      obtain ⟨values, hvalues, rfl⟩ := ih hoperand.symm
      refine ⟨([2], result') :: values.map fun entry => (0 :: entry.1, entry.2), ?_,
        (fill_below values (rfl : [operand, directive, result'][0]? = some operand)).symm⟩
      intro entry hentry
      rcases List.mem_cons.mp hentry with rfl | hentry
      · refine mem_slots.mpr
          ⟨[], .inline (.symbolic directive.directive?) operand result, 2, ?_, rfl, rfl⟩
        rw [chain_evaluate]
        exact List.mem_cons_self
      · obtain ⟨inner, hinner, rfl⟩ := List.mem_map.mp hentry
        exact slots_below (chain_evaluate operand directive result) (hvalues inner hinner)
    | inert e hchain hblanked =>
      intro h
      have heq : b = e := eq_of_blanked_inert hchain (by rw [← h, hblanked])
      exact ⟨[], by simp, heq⟩
  · rintro ⟨values, hvalues, rfl⟩
    exact (blanked_fill hvalues).symm

end Expr

namespace Plan

/-! ### Plans that fit -/

theorem stagesOf_map {f : Path × EvaluableForm → Path × EvaluableForm}
    (hf : ∀ entry, stageOf (f entry).1 (f entry).2 = stageOf entry.1 entry.2)
    (chain : List (Path × EvaluableForm)) : stagesOf (chain.map f) = stagesOf chain := by
  induction chain with
  | nil => rfl
  | cons entry rest ih =>
    rw [List.map_cons, stagesOf, stagesOf, hf, ih]

theorem stagesOf_skeleton (e : Expr) : stagesOf e.skeleton.reverse = stagesOf e.chain.reverse := by
  rw [Expr.skeleton, ← List.map_reverse]
  refine stagesOf_map (fun entry => ?_) _
  obtain ⟨path, form⟩ := entry
  rcases form with _ | ⟨_ | _, _, _⟩ <;> rfl

/-- What has to be done for an expression does not depend on the results in it. -/
theorem stagesOf_congr {a b : Expr} (h : a.blanked = b.blanked) :
    stagesOf a.chain.reverse = stagesOf b.chain.reverse := by
  rw [← stagesOf_skeleton, Expr.skeleton_congr h, stagesOf_skeleton]

/-- The stages of a plan are the last ones of the plan of an expression. -/
def Fits (plan : Plan) (e : Expr) : Prop :=
  ∃ stages, stagesOf e.chain.reverse = .ok stages ∧ plan.stages <:+ stages

variable {plan : Plan} {a b e : Expr}

theorem Fits.congr (h : plan.Fits a) (hsame : a.blanked = b.blanked) : plan.Fits b := by
  obtain ⟨stages, hstages, hsuffix⟩ := h
  exact ⟨stages, by rw [← stagesOf_congr hsame, hstages], hsuffix⟩

theorem fits_of_ofExpr (h : ofExpr e = .ok (some plan)) : plan.Fits e := by
  unfold ofExpr at h
  split at h
  · cases h
  · cases hstages : stagesOf e.chain.reverse with
    | error error =>
      rw [hstages] at h
      cases h
    | ok stages =>
      rw [hstages] at h
      cases h
      exact ⟨stages, hstages, List.suffix_refl _⟩

theorem mem_of_stagesOf {chain : List (Path × EvaluableForm)} {stages : List Stage} {stage : Stage}
    (h : stagesOf chain = .ok stages) (hmem : stage ∈ stages) :
    ∃ entry ∈ chain, stageOf entry.1 entry.2 = .ok stage := by
  induction chain generalizing stages with
  | nil =>
    cases h
    cases hmem
  | cons entry rest ih =>
    rw [stagesOf] at h
    cases hfirst : stageOf entry.1 entry.2 with
    | error error =>
      rw [hfirst] at h
      cases h
    | ok first =>
      cases hrest : stagesOf rest with
      | error error =>
        rw [hfirst, hrest] at h
        cases h
      | ok further =>
        rw [hfirst, hrest] at h
        cases h
        rcases List.mem_cons.mp hmem with rfl | hmem
        · exact ⟨entry, List.mem_cons_self, hfirst⟩
        · obtain ⟨entry', hentry', hstage⟩ := ih hrest hmem
          exact ⟨entry', List.mem_cons_of_mem _ hentry', hstage⟩

/-- The result of an inline stage of a plan that fits goes into a slot of the chain. -/
theorem Fits.mem_slots (h : plan.Fits e) {p resultPath : Path} {m : InlineMode}
    (hmem : ⟨p, .inline m resultPath⟩ ∈ plan.stages) : resultPath ∈ e.slots := by
  obtain ⟨stages, hstages, hsuffix⟩ := h
  obtain ⟨⟨path, form⟩, hentry, hstage⟩ := mem_of_stagesOf hstages (hsuffix.subset hmem)
  rw [Expr.mem_slots]
  refine ⟨path, form, ?_⟩
  rw [List.mem_reverse] at hentry
  cases form with
  | assign target body =>
    unfold stageOf at hstage
    cases hname : singleTarget target <;> simp [hname, Except.map] at hstage
  | inline mode operand result =>
    cases hstage
    cases m with
    | numeric => exact ⟨1, hentry, rfl, rfl⟩
    | symbolic directive => exact ⟨2, hentry, rfl, rfl⟩

/-- Recording the value of a stage changes nothing but a result, and the plan still fits. -/
theorem Fits.complete (h : plan.Fits e) (value : Expr) :
    (plan.complete e value).2.1.blanked = e.blanked ∧
      (plan.complete e value).2.2.Fits (plan.complete e value).2.1 := by
  have hlater : ∀ {stage : Stage} {rest : List Stage} (carried : Option Expr),
      plan.stages = stage :: rest → Fits ⟨rest, carried⟩ e := by
    intro stage rest carried hstages
    obtain ⟨all, hall, hsuffix⟩ := h
    exact ⟨all, hall, (List.suffix_cons stage rest).trans (hstages ▸ hsuffix)⟩
  unfold Plan.complete
  split
  · exact ⟨rfl, h⟩
  · rename_i stage rest hstages
    split
    · rename_i mode resultPath hkind
      have hslot : resultPath ∈ e.slots := by
        refine h.mem_slots (p := stage.operandPath) (m := mode) ?_
        rw [hstages, ← hkind]
        exact List.mem_cons_self
      have hsame := Expr.blanked_replaceAt hslot value
      exact ⟨hsame, (hlater _ hstages).congr hsame.symm⟩
    · exact ⟨rfl, hlater _ hstages⟩

end Plan

end MathCanvas
