import MathCanvas.Proofs.Expr.Results

/-!
# Addresses in an expression

A path leads through `above` first and through the rest from there (`Expr.at?_append`), and so does
a replacement: it is seen from the node at `above` as a replacement at the rest
(`Expr.at?_replaceAt_above`). What stands at the path and below it is therefore the new node
(`Expr.at?_replaceAt_below`), and what stands above keeps its head and the number of its arguments
(`Expr.sameShape_replaceAt`). Everything else stays (`Expr.at?_replaceAt_of_apart`), so that two
replacements beside each other may be made in either order (`Expr.replaceAt_comm`).

The paths of a chain are such addresses: each form is found at its own path (`Expr.at?_chain`).
-/

namespace MathCanvas

namespace Expr

/-! ### Finding a node -/

@[simp] theorem at?_nil (e : Expr) : e.at? [] = some e := by cases e <;> rfl

theorem at?_cons {head : String} {args : List Expr} {i : Nat} {a : Expr} (ha : args[i]? = some a)
    (path : Path) : (app head args).at? (i :: path) = a.at? path := by
  rw [at?, Expr.args, ha]

/-- Following one path after another is following them in one. -/
theorem at?_append (e : Expr) (above below : Path) :
    e.at? (above ++ below) = (e.at? above).bind fun node => node.at? below := by
  induction above generalizing e with
  | nil => rw [List.nil_append, at?_nil, Option.bind_some]
  | cons i above ih =>
    rw [List.cons_append, at?, at?]
    cases e.args[i]? with
    | none => rfl
    | some arg => exact ih arg

/-! ### Replacing a node -/

@[simp] theorem replaceAt_nil (e new : Expr) : e.replaceAt [] new = new := by cases e <;> rfl

/-- A replacement below the root is made in one of the arguments, if there is that one. -/
theorem replaceAt_app (head : String) (args : List Expr) (i : Nat) (path : Path) (new : Expr) :
    (app head args).replaceAt (i :: path) new =
      app head (args.modify i fun arg => arg.replaceAt path new) := by
  cases harg : args[i]? with
  | none =>
    have hbeyond : args.length ≤ i := List.getElem?_eq_none_iff.mp harg
    simp [replaceAt, replaceAt?, harg, List.modify_eq_self hbeyond]
  | some arg => rw [replaceAt_cons harg, List.modify_eq_set, harg, Option.getD_some]

/-- A node can be replaced iff it can be found. -/
theorem isSome_replaceAt? (e : Expr) (path : Path) (new : Expr) :
    (e.replaceAt? path new).isSome = (e.at? path).isSome := by
  induction path generalizing e with
  | nil => cases e <;> rfl
  | cons i path ih =>
    cases e with
    | app head args =>
      rw [replaceAt?, at?, Expr.args]
      cases args[i]? with
      | none => rfl
      | some arg => rw [Option.isSome_map, ih]
    | number _ | symbol _ | string _ => rfl

theorem replaceAt?_of_at? {e old : Expr} {path : Path} (h : e.at? path = some old) (new : Expr) :
    e.replaceAt? path new = some (e.replaceAt path new) := by
  have hsome : (e.replaceAt? path new).isSome = true := by rw [isSome_replaceAt?, h]; rfl
  obtain ⟨replaced, hreplaced⟩ := Option.isSome_iff_exists.mp hsome
  rw [replaceAt, hreplaced, Option.getD_some]

/-- Where nothing is found nothing changes. -/
theorem replaceAt_of_at?_eq_none {e : Expr} {path : Path} (h : e.at? path = none) (new : Expr) :
    e.replaceAt path new = e := by
  have hnone : e.replaceAt? path new = none := by
    rw [← Option.not_isSome_iff_eq_none, isSome_replaceAt?, h]
    exact Bool.false_ne_true
  rw [replaceAt, hnone, Option.getD_none]

/-- From a node on the way, a replacement is one at the rest of the path. -/
theorem at?_replaceAt_above (e : Expr) (above below : Path) (new : Expr) :
    (e.replaceAt (above ++ below) new).at? above =
      (e.at? above).map fun node => node.replaceAt below new := by
  induction above generalizing e with
  | nil => simp
  | cons i above ih =>
    cases e with
    | app head args =>
      rw [List.cons_append, replaceAt_app, at?, at?, Expr.args, Expr.args, List.getElem?_modify_eq]
      cases args[i]? with
      | none => rfl
      | some arg => exact ih arg
    | number _ | symbol _ | string _ => rfl

/-- What is put at a path that exists is found there, with all that stands below it. -/
theorem at?_replaceAt_below {e old : Expr} {path : Path} (h : e.at? path = some old) (new : Expr)
    (below : Path) : (e.replaceAt path new).at? (path ++ below) = new.at? below := by
  have hself := at?_replaceAt_above e path [] new
  rw [List.append_nil, h, Option.map_some, replaceAt_nil] at hself
  rw [at?_append, hself, Option.bind_some]

theorem at?_replaceAt_self {e old : Expr} {path : Path} (h : e.at? path = some old) (new : Expr) :
    (e.replaceAt path new).at? path = some new := by
  simpa using at?_replaceAt_below h new []

/-- A node above a replaced one keeps its head and the number of its arguments. -/
theorem sameShape_replaceAt {e old : Expr} {path above : Path} (h : e.at? path = some old)
    (habove : above <+: path) (hne : above ≠ path) (new : Expr) :
    ∃ node node', e.at? above = some node ∧ (e.replaceAt path new).at? above = some node' ∧
      node'.head? = node.head? ∧ node'.args.length = node.args.length := by
  obtain ⟨below, rfl⟩ := habove
  rw [at?_append, Option.bind_eq_some_iff] at h
  obtain ⟨node, hnode, hold⟩ := h
  refine ⟨node, node.replaceAt below new, hnode, ?_, ?_⟩
  · rw [at?_replaceAt_above, hnode, Option.map_some]
  · cases below with
    | nil => exact absurd (List.append_nil above).symm hne
    | cons i below =>
      cases node with
      | app head args =>
        rw [replaceAt_app]
        exact ⟨rfl, List.length_modify ..⟩
      | number _ | symbol _ | string _ => cases hold

/-- A node stays if neither it nor the replaced one lies within the other. -/
theorem at?_replaceAt_of_apart {e : Expr} {path other : Path} (hpath : ¬path <+: other)
    (hother : ¬other <+: path) (new : Expr) : (e.replaceAt path new).at? other = e.at? other := by
  induction path generalizing e other with
  | nil => exact absurd List.nil_prefix hpath
  | cons i path ih =>
    cases other with
    | nil => exact absurd List.nil_prefix hother
    | cons j other =>
      cases e with
      | app head args =>
        rw [replaceAt_app, at?, at?, Expr.args, Expr.args]
        by_cases hij : i = j
        · subst hij
          rw [List.getElem?_modify_eq]
          cases args[i]? with
          | none => rfl
          | some arg =>
            exact ih (fun h => hpath (List.cons_prefix_cons.mpr ⟨rfl, h⟩))
              fun h => hother (List.cons_prefix_cons.mpr ⟨rfl, h⟩)
        · rw [List.getElem?_modify_ne _ _ hij]
      | number _ | symbol _ | string _ => rfl

/-- Replacements beside each other do not see each other. -/
theorem replaceAt_comm {e : Expr} {path other : Path} (hpath : ¬path <+: other)
    (hother : ¬other <+: path) (new new' : Expr) :
    (e.replaceAt path new).replaceAt other new' = (e.replaceAt other new').replaceAt path new := by
  induction path generalizing e other with
  | nil => exact absurd List.nil_prefix hpath
  | cons i path ih =>
    cases other with
    | nil => exact absurd List.nil_prefix hother
    | cons j other =>
      cases e with
      | app head args =>
        simp only [replaceAt_app]
        by_cases hij : i = j
        · -- both go through one argument
          subst hij
          have hbelow : ∀ arg : Expr, (arg.replaceAt path new).replaceAt other new' =
              (arg.replaceAt other new').replaceAt path new := fun arg =>
            ih (fun h => hpath (List.cons_prefix_cons.mpr ⟨rfl, h⟩))
              fun h => hother (List.cons_prefix_cons.mpr ⟨rfl, h⟩)
          rw [List.modify_modify_eq, List.modify_modify_eq]
          exact congrArg (fun f => app head (args.modify i f)) (funext hbelow)
        · rw [List.modify_modify_ne _ _ _ hij]
      | number _ | symbol _ | string _ => rfl

/-! ### The forms on the chain -/

/-- The operand of a form is one of the arguments. -/
theorem args_operandIndex {e : Expr} {form : EvaluableForm} (h : e.form? = some form) :
    e.args[form.operandIndex]? = some form.operand := by
  unfold form? at h
  split at h
  · split at h
    · cases h
      rfl
    · split at h <;> cases h
      rfl
  · split at h <;> cases h
    rfl
  · cases h

/-- Induction from form to form: an expression is a form, and its chain is that of its operand with
the form in front, or it has no chain. -/
@[elab_as_elim]
theorem form_induction {motive : Expr → Prop}
    (form : ∀ (e : Expr) (top : EvaluableForm), e.form? = some top →
      e.chain = ([], top) ::
        top.operand.chain.map (fun entry => (top.operandIndex :: entry.1, entry.2)) →
      motive top.operand → motive e)
    (inert : ∀ e : Expr, e.chain = [] → motive e) (e : Expr) : motive e := by
  induction e using chain_induction with
  | assign target body ih => exact form _ (.assign target body) rfl (chain_assign target body) ih
  | equal operand result ih =>
    exact form _ (.inline .numeric operand result) rfl (chain_equal operand result) ih
  | evaluate operand directive result ih =>
    exact form _ (.inline (.symbolic directive.directive?) operand result) rfl
      (chain_evaluate operand directive result) ih
  | inert e hchain _ => exact inert e hchain

/-- Each form of the chain is the one that stands at its path. -/
theorem at?_chain {e : Expr} {path : Path} {form : EvaluableForm} (h : (path, form) ∈ e.chain) :
    ∃ node, e.at? path = some node ∧ node.form? = some form := by
  induction e using form_induction generalizing path form with
  | form e top htop hchain ih =>
    rw [hchain] at h
    rcases List.mem_cons.mp h with heq | h
    · cases heq
      exact ⟨e, at?_nil e, htop⟩
    · obtain ⟨⟨inner, form'⟩, hinner, heq⟩ := List.mem_map.mp h
      cases heq
      obtain ⟨node, hnode, hform⟩ := ih hinner
      refine ⟨node, ?_, hform⟩
      rw [at?, args_operandIndex htop]
      exact hnode
  | inert e hchain =>
    rw [hchain] at h
    cases h

/-- The form at a place of the chain lies as deep in the expression as it stands on the chain. -/
theorem length_of_getElem?_chain {e : Expr} {i : Nat} {path : Path} {form : EvaluableForm}
    (h : e.chain[i]? = some (path, form)) : path.length = i := by
  induction e using form_induction generalizing i path form with
  | form e top htop hchain ih =>
    rw [hchain] at h
    cases i with
    | zero =>
      cases h
      rfl
    | succ i =>
      rw [List.getElem?_cons_succ, List.getElem?_map, Option.map_eq_some_iff] at h
      obtain ⟨⟨inner, form'⟩, hinner, heq⟩ := h
      cases heq
      rw [List.length_cons, ih hinner]
  | inert e hchain => simp [hchain] at h

/-- The operand of a form on the chain is a node of the expression. -/
theorem at?_operand {e : Expr} {path : Path} {form : EvaluableForm} (h : (path, form) ∈ e.chain) :
    e.at? (path ++ [form.operandIndex]) = some form.operand := by
  obtain ⟨node, hnode, hform⟩ := at?_chain h
  rw [at?_append, hnode, Option.bind_some, at?, args_operandIndex hform]
  exact at?_nil _

/-! ### The laws of addressing -/

/-- A node is replaced iff it is found, and otherwise nothing changes. After a replacement the new
node stands at the path with all that is below it, the nodes above keep their heads and the numbers
of their arguments, and every other path leads where it has led. Replacements beside each other may
be made in either order. Every path of the chain leads to the form that is listed with it. -/
theorem addressing (e : Expr) (path : Path) (new : Expr) :
    (e.replaceAt? path new).isSome = (e.at? path).isSome ∧
    (e.at? path = none → e.replaceAt path new = e) ∧
    (∀ old, e.at? path = some old →
      e.replaceAt? path new = some (e.replaceAt path new) ∧
      (e.replaceAt path new).at? path = some new ∧
      (∀ below, (e.replaceAt path new).at? (path ++ below) = new.at? below) ∧
      (∀ other, ¬path <+: other → ¬other <+: path →
        (e.replaceAt path new).at? other = e.at? other) ∧
      ∀ above, above <+: path → above ≠ path →
        ∃ node node', e.at? above = some node ∧ (e.replaceAt path new).at? above = some node' ∧
          node'.head? = node.head? ∧ node'.args.length = node.args.length) ∧
    (∀ other new', ¬path <+: other → ¬other <+: path →
      ((e.replaceAt path new).replaceAt? other new').isSome = (e.replaceAt? other new').isSome ∧
      (e.replaceAt path new).replaceAt other new' = (e.replaceAt other new').replaceAt path new) ∧
    ∀ place form, (place, form) ∈ e.chain →
      ∃ node, e.at? place = some node ∧ node.form? = some form := by
  refine ⟨isSome_replaceAt? e path new, fun hnone => replaceAt_of_at?_eq_none hnone new, ?_, ?_,
    fun place form => at?_chain⟩
  · intro old hold
    exact ⟨replaceAt?_of_at? hold new, at?_replaceAt_self hold new, at?_replaceAt_below hold new,
      fun other hpath hother => at?_replaceAt_of_apart hpath hother new,
      fun above habove hne => sameShape_replaceAt hold habove hne new⟩
  · intro other new' hpath hother
    refine ⟨?_, replaceAt_comm hpath hother new new'⟩
    rw [isSome_replaceAt?, isSome_replaceAt?, at?_replaceAt_of_apart hpath hother]

/-- `a := (x + y =)`: the sum and its result slot stand beside each other. -/
theorem addressing_nested :
    let sum := app "Add" [symbol "x", symbol "y"]
    let evaluation := app "Equal" [sum, missing]
    let e := app "Assign" [symbol "a", evaluation]
    let result := app "Sin" [symbol "z"]
    e.at? [1, 1] = some missing ∧ ¬([1, 1] : Path) <+: [1, 0] ∧ ¬([1, 0] : Path) <+: [1, 1] ∧
      (e.replaceAt [1, 1] result).at? ([1, 1] ++ [0]) = some (symbol "z") ∧
      (e.replaceAt [1, 1] result).at? [1, 0] = some sum ∧
      (e.replaceAt [1, 1] result).replaceAt [1, 0] (symbol "s") =
        (e.replaceAt [1, 0] (symbol "s")).replaceAt [1, 1] result ∧
      ∃ node, e.at? [1] = some node ∧ node.form? = some (.inline .numeric sum missing) := by
  intro sum evaluation e result
  have hslot : e.at? [1, 1] = some missing := rfl
  have hpath : ¬([1, 1] : Path) <+: [1, 0] := by decide
  have hother : ¬([1, 0] : Path) <+: [1, 1] := by decide
  have hchain : (([1] : Path), EvaluableForm.inline .numeric sum missing) ∈ e.chain :=
    List.mem_cons_of_mem _ List.mem_cons_self
  obtain ⟨-, -, hfound, hbeside, hforms⟩ := addressing e [1, 1] result
  obtain ⟨-, -, hbelow, hstays, -⟩ := hfound missing hslot
  exact ⟨hslot, hpath, hother, hbelow [0], hstays [1, 0] hpath hother,
    (hbeside [1, 0] (symbol "s") hpath hother).2, hforms [1] _ hchain⟩

end Expr

end MathCanvas
