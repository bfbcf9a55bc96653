import MathCanvas.Command.Calculator
import MathCanvas.Proofs.Expr.Requests
import MathCanvas.Proofs.Value

/-!
# What a calculation depends on

The calculator looks up no names but those that an expression reads: inputs that agree on these give
the same outcome (`Calculator.evaluate_alike`). All NaNs count as one number here, for the inputs as
well as for the outcome; other numbers are compared by their bits (`Expr.Alike`).

The walk that evaluates and the walk that collects names do not go down the same arguments. What
ties them together is that the arguments of every head that the calculator knows are read, but for
the result and the directive of an inline evaluation, which it does not look at either
(`Expr.mem_reads_of_arg`).
-/

namespace MathCanvas

/-! ### Numbers with one NaN -/

namespace Binary64

variable {x x' y y' : Binary64}

/-- Whether two numbers have the same bits or are both NaNs. -/
def alike (x y : Binary64) : Bool := x == y || (x.isNaN && y.isNaN)

theorem alike_iff : x.alike y = true ↔ x = y ∨ x.isNaN = true ∧ y.isNaN = true := by
  simp [alike]

theorem alike_refl (x : Binary64) : x.alike x = true := alike_iff.mpr (.inl rfl)

theorem isZero_eq_of_alike (h : x.alike y = true) : x.isZero = y.isZero := by
  have hzero : ∀ {z : Binary64}, z.isNaN = true → z.isZero = false := by
    intro z hz
    rw [isNaN, decide_eq_true_eq] at hz
    exact decide_eq_false (Nat.ne_of_gt (Nat.zero_lt_of_lt hz))
  rcases alike_iff.mp h with rfl | ⟨hx, hy⟩
  · rfl
  · rw [hzero hx, hzero hy]

/-- An operation that makes a NaN of every NaN. -/
def Propagates (op : Binary64 → Binary64 → Binary64) : Prop :=
  ∀ x y, (x.isNaN || y.isNaN) = true → op x y = nan

theorem propagates_add : Propagates (· + ·) := fun _ _ h => if_pos h

theorem propagates_mul : Propagates (· * ·) := fun _ _ h => if_pos h

theorem propagates_div : Propagates (· / ·) := fun _ _ h => if_pos h

theorem Propagates.alike {op : Binary64 → Binary64 → Binary64} (hop : Propagates op)
    (hx : x.alike x' = true) (hy : y.alike y' = true) : (op x y).alike (op x' y') = true := by
  rcases alike_iff.mp hx with rfl | ⟨hx, hx'⟩
  · rcases alike_iff.mp hy with rfl | ⟨hy, hy'⟩
    · exact alike_refl _
    · rw [hop x y (by rw [hy, Bool.or_true]), hop x y' (by rw [hy', Bool.or_true])]
      exact alike_refl _
  · rw [hop x y (by rw [hx, Bool.true_or]), hop x' y' (by rw [hx', Bool.true_or])]
    exact alike_refl _

end Binary64

/-! ### Expressions with one NaN -/

namespace Expr

variable {a b : Expr} {head name : String} {args : List Expr}

/-- The expressions differ at most in which NaNs their numbers are. -/
def Alike (a b : Expr) : Prop := agree Binary64.alike a b = true

instance : Decidable (a.Alike b) := inferInstanceAs (Decidable (_ = true))

theorem alike_refl (a : Expr) : a.Alike a := agree_refl Binary64.alike_refl a

mutual

/-- Which NaN it is, is not written. -/
theorem toJson_eq_of_agree : (a b : Expr) → agree Binary64.alike a b = true → a.toJson = b.toJson
  | .number x, .number y, h => by
    rw [agree, Binary64.alike_iff] at h
    rcases h with rfl | ⟨hx, hy⟩
    · rfl
    · rw [toJson, toJson, numberToJson, if_pos hx, numberToJson, if_pos hy]
  | .symbol _, .symbol _, h | .string _, .string _, h => by
    rw [agree, beq_iff_eq] at h
    rw [h]
  | .app _ args, .app _ args', h => by
    rw [agree, Bool.and_eq_true, beq_iff_eq] at h
    rw [toJson, toJson, h.1, argsToJson_eq_of_agreeAll args args' h.2]
  | .number _, .symbol _, h | .number _, .string _, h | .number _, .app _ _, h
  | .symbol _, .number _, h | .symbol _, .string _, h | .symbol _, .app _ _, h
  | .string _, .number _, h | .string _, .symbol _, h | .string _, .app _ _, h
  | .app _ _, .number _, h | .app _ _, .symbol _, h | .app _ _, .string _, h => by
    simp [agree] at h

theorem argsToJson_eq_of_agreeAll : (l m : List Expr) → agreeAll Binary64.alike l m = true →
    argsToJson l = argsToJson m
  | [], [], _ => rfl
  | [], _ :: _, h | _ :: _, [], h => by simp [agreeAll] at h
  | a :: rest, b :: rest', h => by
    rw [agreeAll, Bool.and_eq_true] at h
    rw [argsToJson, argsToJson, toJson_eq_of_agree a b h.1, argsToJson_eq_of_agreeAll rest rest' h.2]

end

theorem Alike.text_eq (h : a.Alike b) : a.text = b.text := by
  rw [text, text, toJson_eq_of_agree a b h]

theorem Alike.number? (h : a.Alike b) :
    Option.Rel (fun x y => x.alike y = true) a.number? b.number? := by
  cases a <;> cases b <;> first | exact .none | exact .some h | simp [Alike, agree] at h

/-! ### Names that arguments read -/

theorem mem_readsOfAll {arg : Expr} (harg : arg ∈ args) (hname : name ∈ arg.reads) :
    name ∈ readsOfAll args := by
  induction args with
  | nil => cases harg
  | cons first rest ih =>
    rw [readsOfAll, List.mem_append]
    rcases List.mem_cons.mp harg with rfl | harg
    · exact .inl hname
    · exact .inr (ih harg)

/-- A head all of whose arguments are read. -/
def ReadsAll (head : String) : Prop :=
  head ∉ [missingName, "Assign", "Equal", "Evaluate", "To"]

theorem mem_reads_of_arg (hhead : ReadsAll head) {arg : Expr} (harg : arg ∈ args)
    (hname : name ∈ arg.reads) : name ∈ (app head args).reads := by
  have hreads : (app head args).reads = readsOfAll args := by
    simp only [ReadsAll, List.mem_cons, List.not_mem_nil, or_false, not_or] at hhead
    simp [reads, hhead]
  rw [hreads]
  exact mem_readsOfAll harg hname

theorem readsAll_add : ReadsAll "Add" := by simp [ReadsAll, missingName]

theorem readsAll_multiply : ReadsAll "Multiply" := by simp [ReadsAll, missingName]

theorem readsAll_divide : ReadsAll "Divide" := by simp [ReadsAll, missingName]

theorem readsAll_equation : ReadsAll "EqualEqual" := by simp [ReadsAll, missingName]

end Expr

namespace Calculator

/-! ### Outcomes -/

/-- The outcomes are the same error, or values that are alike. -/
inductive Alike : Outcome → Outcome → Prop
  | ok {a b : Expr} (h : a.Alike b) : Alike (.ok a) (.ok b)
  | error (e : BackendError) : Alike (.error e) (.error e)

variable {inputs inputs' : Inputs} {a a' b b' : Expr}

theorem alike_refl : (o : Outcome) → Alike o o
  | .ok a => .ok (Expr.alike_refl a)
  | .error e => .error e

theorem divide_eq (a b : Expr) : divide a b =
    match b.number? with
    | none => .error (.failed "not a number")
    | some y =>
      if y.isZero then .error (.failed "division by zero")
      else match a.number? with
        | none => .error (.failed "not a number")
        | some x => .ok (.number (x / y)) := by
  cases a <;> cases b <;> rfl

theorem divide_alike (ha : a.Alike a') (hb : b.Alike b') : Alike (divide a b) (divide a' b') := by
  rw [divide_eq, divide_eq]
  have hx := ha.number?
  have hy := hb.number?
  generalize a.number? = m, a'.number? = m', b.number? = n, b'.number? = n' at hx hy
  cases hy with
  | none => exact alike_refl _
  | some hy =>
    simp only [Binary64.isZero_eq_of_alike hy]
    split
    · exact alike_refl _
    cases hx with
    | none => exact alike_refl _
    | some hx => exact .ok (Binary64.propagates_div.alike hx hy)

theorem foldArgs_cons (op : Binary64 → Binary64 → Binary64) (start : Binary64) (arg : Expr)
    (rest : List Expr) : foldArgs inputs op start (arg :: rest) =
    match evaluate inputs arg with
    | .error e => .error e
    | .ok a =>
      match a.number? with
      | some x => foldArgs inputs op (op start x) rest
      | none => .error (.failed ("not a number: " ++ a.text)) := by
  rw [foldArgs]
  cases evaluate inputs arg with
  | error e => rfl
  | ok a => cases a <;> rfl

/-- Arguments with outcomes that are alike add up, or multiply, to outcomes that are alike. -/
theorem foldArgs_alike {op : Binary64 → Binary64 → Binary64} (hop : Binary64.Propagates op)
    {args : List Expr} (hargs : ∀ arg ∈ args, Alike (evaluate inputs arg) (evaluate inputs' arg))
    {start start' : Binary64} (hstart : start.alike start' = true) :
    Alike (foldArgs inputs op start args) (foldArgs inputs' op start' args) := by
  induction args generalizing start start' with
  | nil =>
    rw [foldArgs, foldArgs]
    exact .ok hstart
  | cons arg rest ih =>
    rw [foldArgs_cons, foldArgs_cons]
    have harg := hargs arg List.mem_cons_self
    generalize evaluate inputs arg = o at harg
    generalize evaluate inputs' arg = o' at harg
    cases harg with
    | error e => exact .error e
    | ok h =>
      have hnumber := h.number?
      simp only [h.text_eq]
      rename_i a b
      generalize a.number? = m, b.number? = m' at hnumber
      cases hnumber with
      | none => exact .error _
      | some hx =>
        exact ih (fun arg harg => hargs arg (List.mem_cons_of_mem _ harg)) (hop.alike hstart hx)

/-! ### Inputs -/

/-- What two inputs have for a name differs at most in which NaNs it holds. -/
def AgreeOn (inputs inputs' : Inputs) (name : String) : Prop :=
  Option.Rel Expr.Alike (Json.field? name inputs) (Json.field? name inputs')

theorem lookup_alike {name : String} (h : AgreeOn inputs inputs' name) :
    (lookup inputs name).Alike (lookup inputs' name) := by
  unfold AgreeOn at h
  unfold lookup
  generalize Json.field? name inputs = v, Json.field? name inputs' = v' at h
  cases h with
  | none => exact Expr.alike_refl _
  | some h => exact h

theorem agreeOn_of_eq {name : String} (h : Json.field? name inputs = Json.field? name inputs') :
    AgreeOn inputs inputs' name := by
  rw [AgreeOn, h]
  cases Json.field? name inputs' with
  | none => exact .none
  | some a => exact .some (Expr.alike_refl a)

theorem evaluate_alike_of_reads (hmissing : AgreeOn inputs inputs' Expr.missingName) :
    (e : Expr) → (∀ name ∈ e.reads, AgreeOn inputs inputs' name) →
      Alike (evaluate inputs e) (evaluate inputs' e)
  | .number x, _ => by
    rw [evaluate, evaluate]
    exact alike_refl _
  | .string text, _ => by
    rw [evaluate, evaluate]
    exact alike_refl _
  | .symbol name, hreads => by
    rw [evaluate, evaluate]
    refine .ok (lookup_alike ?_)
    by_cases hname : name = Expr.missingName
    · exact hname ▸ hmissing
    · exact hreads name (by simp [Expr.reads, hname])
  | .app head args, hreads => by
    have hargs : Expr.ReadsAll head → ∀ arg ∈ args,
        Alike (evaluate inputs arg) (evaluate inputs' arg) := fun hhead arg harg =>
      evaluate_alike_of_reads hmissing arg fun name hname =>
        hreads name (Expr.mem_reads_of_arg hhead harg hname)
    unfold evaluate
    split
    · next hhead =>
      obtain rfl := eq_of_beq hhead
      exact foldArgs_alike Binary64.propagates_add (hargs Expr.readsAll_add)
        (Binary64.alike_refl _)
    split
    · next hhead =>
      obtain rfl := eq_of_beq hhead
      exact foldArgs_alike Binary64.propagates_mul (hargs Expr.readsAll_multiply)
        (Binary64.alike_refl _)
    split
    · next first second =>
      split
      · next hhead =>
        obtain rfl := eq_of_beq hhead
        rw [Expr.reads_equal] at hreads
        exact evaluate_alike_of_reads hmissing first hreads
      split
      · next hhead =>
        obtain rfl := eq_of_beq hhead
        have hfirst := hargs Expr.readsAll_divide first (by simp)
        have hsecond := hargs Expr.readsAll_divide second (by simp)
        generalize evaluate inputs first = o, evaluate inputs' first = o',
          evaluate inputs second = q, evaluate inputs' second = q' at hfirst hsecond
        cases hfirst with
        | error e => exact .error e
        | ok ha =>
          cases hsecond with
          | error e => exact .error e
          | ok hb => exact divide_alike ha hb
      · exact .error _
    · next operand directive result =>
      split
      · next hhead =>
        obtain rfl := eq_of_beq hhead
        rw [Expr.reads_evaluate] at hreads
        split
        · next solved value =>
          -- only the value of a solved equation is looked at, but both of its sides are read
          exact evaluate_alike_of_reads hmissing value fun name hname =>
            hreads name (Expr.mem_reads_of_arg Expr.readsAll_equation (by simp) hname)
        · exact .error _
        · exact evaluate_alike_of_reads hmissing operand hreads
      · exact .error _
    · exact .error _

/-- Inputs that agree on the names that an expression reads give outcomes that are alike: the same
error, or the same value up to NaNs. The placeholder is never read, and so must not be an input. -/
theorem evaluate_alike {e : Expr} (hagree : ∀ name ∈ e.readNames, AgreeOn inputs inputs' name)
    (hmissing : Json.field? Expr.missingName inputs = none)
    (hmissing' : Json.field? Expr.missingName inputs' = none) :
    Alike (evaluate inputs e) (evaluate inputs' e) :=
  evaluate_alike_of_reads (agreeOn_of_eq (hmissing.trans hmissing'.symm)) e fun name hname =>
    hagree name (mem_sortNames.mpr hname)

/-- The name in a result slot is not read, and a name that is read may have two different NaNs. -/
theorem evaluate_alike_otherResult :
    (Expr.app "Add" [.symbol "x", .app "Equal" [.symbol "y", .symbol "w"]]).readNames = ["x", "y"] ∧
      Alike
        (evaluate [("w", .number (.ofInt 1)), ("x", .number .nan), ("y", .number (.ofInt 2))]
          (.app "Add" [.symbol "x", .app "Equal" [.symbol "y", .symbol "w"]]))
        (evaluate [("x", .number ⟨0x7ff8000000000001⟩), ("y", .number (.ofInt 2))]
          (.app "Add" [.symbol "x", .app "Equal" [.symbol "y", .symbol "w"]])) := by
  have hnames : (Expr.app "Add" [.symbol "x", .app "Equal" [.symbol "y", .symbol "w"]]).readNames
      = ["x", "y"] := by decide +kernel
  refine ⟨hnames, evaluate_alike (fun name hname => ?_) (by decide +kernel) (by decide +kernel)⟩
  rw [hnames] at hname
  simp only [List.mem_cons, List.not_mem_nil, or_false] at hname
  rcases hname with rfl | rfl
  · exact .some (by decide +kernel)
  · exact agreeOn_of_eq (by decide +kernel)

end Calculator

end MathCanvas
