import MathCanvas.Proofs.Expr.Codec

/-!
# The grammar of expressions in JSON

Which JSON values are expressions is said twice here, without the functions that read them. The
grammar (`Json.Grammatical`) builds the values that are. And every value has *nodes*, itself and
what stands in it as an argument, depth first from left to right (`Json.nodes`), each of which may
offend by itself (`Json.offence?`). A value is grammatical exactly if none of its nodes offends
(`Json.grammatical_iff`).

Reading accepts exactly the grammatical values, and of all others it reports the first node that
offends (`Expr.ofJson_accepts`).
-/

namespace MathCanvas

namespace Json

/-! ### The grammar -/

/-- Whether a text is a number literal, with or without a marker of its kind behind it. -/
def isNumberLiteral (text : String) : Bool :=
  (Binary64.ofLiteral? (Expr.withoutMarker text)).isSome

/-- A number as it may stand in a field `num`. -/
inductive NumberField : Json → Prop
  | number (n : JsonNumber) : NumberField (.num n)
  | literal {text : String} (htext : isNumberLiteral text = true) : NumberField (.str text)

/-- What the fields of an object make it. -/
inductive ObjectKind where
  | num (value : Json)
  | sym (name : String)
  | str (text : String)
  | function (items : List Json)
  | other

/-- A field `num` decides in any case, and after it the first of `sym`, `str` and `fn` that holds
what it should. All other fields are ignored. -/
def objectKind (fields : List (String × Json)) : ObjectKind :=
  match field? "num" fields with
  | some value => .num value
  | none =>
    match field? "sym" fields with
    | some (.str name) => .sym name
    | _ =>
      match field? "str" fields with
      | some (.str text) => .str text
      | _ =>
        match field? "fn" fields with
        | some (.arr items) => .function items
        | _ => .other

/-- The values that are expressions. -/
inductive Grammatical : Json → Prop
  | number (n : JsonNumber) : Grammatical (.num n)
  | string (text : String) : Grammatical (.str text)
  | application (head : String) {args : List Json} (hargs : ∀ arg ∈ args, Grammatical arg) :
    Grammatical (.arr (.str head :: args))
  | num {fields : List (String × Json)} {value : Json} (hkind : objectKind fields = .num value)
    (hvalue : NumberField value) : Grammatical (.obj fields)
  | sym {fields : List (String × Json)} {name : String} (hkind : objectKind fields = .sym name) :
    Grammatical (.obj fields)
  | str {fields : List (String × Json)} {text : String} (hkind : objectKind fields = .str text) :
    Grammatical (.obj fields)
  | function {fields : List (String × Json)} {items : List Json}
    (hkind : objectKind fields = .function items) (hitems : Grammatical (.arr items)) :
    Grammatical (.obj fields)

/-! ### Nodes -/

/-- The nodes right below a value: the arguments of an application, or the application that an
object holds. -/
def parts : Json → List Json
  | .arr (_ :: args) => args
  | .obj fields =>
    match objectKind fields with
    | .function items => [.arr items]
    | _ => []
  | _ => []

variable {key : String} {value part : Json} {items : List Json} {fields : List (String × Json)}

theorem field?_of_objectKind (h : objectKind fields = .function items) :
    field? "fn" fields = some (.arr items) := by
  unfold objectKind at h
  grind

theorem sizeOf_lt_of_field? (h : field? key fields = some value) :
    sizeOf value < sizeOf fields := by
  induction fields with
  | nil => cases h
  | cons field rest ih =>
    obtain ⟨name, first⟩ := field
    simp only [List.cons.sizeOf_spec, Prod.mk.sizeOf_spec]
    rw [field?] at h
    split at h
    · next hlater =>
      have hrest := ih (h ▸ hlater)
      omega
    · split at h
      · cases h
        omega
      · cases h

theorem sizeOf_lt_of_mem_parts (h : part ∈ value.parts) : sizeOf part < sizeOf value := by
  unfold parts at h
  split at h
  · next head args =>
    have harg := List.sizeOf_lt_of_mem h
    simp only [Json.arr.sizeOf_spec, List.cons.sizeOf_spec]
    omega
  · next fields =>
    split at h
    · next items hkind =>
      obtain rfl := List.mem_singleton.mp h
      have hitems := sizeOf_lt_of_field? (field?_of_objectKind hkind)
      simp only [Json.obj.sizeOf_spec]
      omega
    · cases h
  · cases h

/-- The nodes of a value, depth first from left to right. -/
def nodes (value : Json) : List Json :=
  value :: value.parts.attach.flatMap fun part => part.1.nodes
termination_by sizeOf value
decreasing_by exact sizeOf_lt_of_mem_parts part.2

theorem nodes_eq (value : Json) : value.nodes = value :: value.parts.flatMap nodes := by
  rw [nodes, List.flatMap_subtype fun part _ => rfl, List.unattach_attach]

/-- What holds of a value if it holds of its parts, holds of all values. -/
theorem parts_induction {motive : Json → Prop}
    (h : ∀ value, (∀ part ∈ value.parts, motive part) → motive value) (value : Json) :
    motive value :=
  h value fun part _ => parts_induction h part
termination_by sizeOf value
decreasing_by exact sizeOf_lt_of_mem_parts ‹_›

/-! ### Offences -/

/-- What is wrong with the value of a field `num`. -/
def numberOffence? : Json → Option ExprFault
  | .num _ => none
  | .str text => if isNumberLiteral text then none else some (.invalidNumber text)
  | value => some (.invalidNumber value.render)

/-- What is wrong with a node by itself. -/
def offence? : Json → Option ExprFault
  | .null => some .null
  | .bool _ => some .boolean
  | .num _ | .str _ => none
  | .arr [] => some .emptyFunction
  | .arr (.str _ :: _) => none
  | .arr (head :: _) => some (.invalidHead head.render)
  | .obj fields =>
    match objectKind fields with
    | .num value => numberOffence? value
    | .sym _ | .str _ | .function _ => none
    | .other => some (.unsupportedObject (Json.obj fields).render)

theorem numberField_iff : NumberField value ↔ numberOffence? value = none := by
  constructor
  · rintro (n | htext)
    · rfl
    · rw [numberOffence?, if_pos htext]
  · intro h
    cases value with
    | num n => exact .number n
    | str text =>
      rw [numberOffence?, ite_eq_left_iff] at h
      exact .literal (by simpa using h)
    | _ => cases h

/-- A value is grammatical if it does not offend by itself and its parts are grammatical. -/
theorem grammatical_iff_parts :
    Grammatical value ↔ value.offence? = none ∧ ∀ part ∈ value.parts, Grammatical part := by
  constructor
  · intro h
    cases h with
    | number n => exact ⟨rfl, by simp [parts]⟩
    | string text => exact ⟨rfl, by simp [parts]⟩
    | application head hargs => exact ⟨rfl, hargs⟩
    | num hkind hvalue => simpa [offence?, parts, hkind] using numberField_iff.mp hvalue
    | sym hkind => simp [offence?, parts, hkind]
    | str hkind => simp [offence?, parts, hkind]
    | function hkind hitems => simpa [offence?, parts, hkind] using hitems
  · rintro ⟨hoffence, hparts⟩
    cases value with
    | null => cases hoffence
    | bool b => cases hoffence
    | num n => exact .number n
    | str text => exact .string text
    | arr items =>
      match items, hoffence, hparts with
      | .str head :: args, _, hparts => exact .application head hparts
    | obj fields =>
      cases hkind : objectKind fields with
      | num value =>
        rw [offence?, hkind] at hoffence
        exact .num hkind (numberField_iff.mpr hoffence)
      | sym name => exact .sym hkind
      | str text => exact .str hkind
      | function items =>
        refine .function hkind (hparts _ ?_)
        simp [parts, hkind]
      | other => simp [offence?, hkind] at hoffence

/-- A value is grammatical exactly if none of its nodes offends. -/
theorem grammatical_iff : Grammatical value ↔ ∀ node ∈ value.nodes, node.offence? = none := by
  induction value using parts_induction with
  | h value ih =>
    rw [grammatical_iff_parts, nodes_eq, List.forall_mem_cons]
    refine and_congr_right fun _ => ?_
    simp only [List.mem_flatMap]
    constructor
    · rintro h node ⟨part, hpart, hnode⟩
      exact (ih part hpart).mp (h part hpart) node hnode
    · intro h part hpart
      exact (ih part hpart).mpr fun node hnode => h node ⟨part, hpart, hnode⟩

end Json

namespace Expr

open Json

/-! ### Reading -/

theorem ofApplicationField_eq (fields : List (String × Json)) :
    ofApplicationField fields = (field? "fn" fields).map fun
      | .arr items => some (ofItems items)
      | _ => none := by
  induction fields with
  | nil => rfl
  | cons field rest ih =>
    obtain ⟨name, value⟩ := field
    rw [ofApplicationField_cons, ih, field?]
    cases field? "fn" rest with
    | some later => rfl
    | none =>
      simp only [Option.map_none]
      split
      · cases value <;> rfl
      · rfl

/-- An object is read as what its fields make it. -/
theorem ofJson_obj (fields : List (String × Json)) : ofJson (.obj fields) =
    match objectKind fields with
    | .num value => ofNumberField value
    | .sym name => .ok (.symbol name)
    | .str text => .ok (.string text)
    | .function items => ofItems items
    | .other => .error (.unsupportedObject (Json.obj fields).render) := by
  rw [ofJson, ofApplicationField_eq, ofScalarFields?, objectKind]
  cases field? "num" fields with
  | some value => rfl
  | none =>
    generalize field? "sym" fields = sym, field? "str" fields = str, field? "fn" fields = fn
    rcases sym with _ | (_ | _ | _ | name | _ | _) <;> try rfl
    all_goals rcases str with _ | (_ | _ | _ | text | _ | _) <;> try rfl
    all_goals rcases fn with _ | (_ | _ | _ | _ | items | _) <;> rfl

/-- Why a value is no expression, if it is none. -/
def fault? (value : Json) : Option ExprFault :=
  match ofJson value with
  | .error fault => some fault
  | .ok _ => none

theorem fault?_ofItems (head : String) (args : List Json) :
    fault? (.arr (.str head :: args)) = args.findSome? fault? := by
  have hargs : ∀ {args : List Json}, (∃ es, ofArgs args = .ok es ∧ args.findSome? fault? = none) ∨
      ∃ fault, ofArgs args = .error fault ∧ args.findSome? fault? = some fault := by
    intro args
    induction args with
    | nil => exact .inl ⟨[], rfl, rfl⟩
    | cons arg rest ih =>
      rw [ofArgs, List.findSome?_cons, fault?]
      cases ofJson arg with
      | error fault => exact .inr ⟨fault, rfl, rfl⟩
      | ok e =>
        rcases ih with ⟨es, hes, hrest⟩ | ⟨fault, hfault, hrest⟩
        · exact .inl ⟨e :: es, by rw [hes], hrest⟩
        · exact .inr ⟨fault, by rw [hfault], hrest⟩
  rw [fault?, ofJson, ofItems]
  rcases hargs with ⟨es, hes, hrest⟩ | ⟨fault, hfault, hrest⟩
  · rw [hes, hrest]
    rfl
  · rw [hfault, hrest]
    rfl

/-- The words that are numbers are literals as well. -/
theorem ofNumberText_eq (text : String) : ofNumberText text =
    match Binary64.ofLiteral? (withoutMarker text) with
    | some x => .ok (.number x)
    | none => .error (.invalidNumber text) := by
  have hnan : Binary64.ofLiteral? "NaN" = some .nan := by decide +kernel
  have hplus : Binary64.ofLiteral? "+Infinity" = some (.infinity false) := by decide +kernel
  have hbare : Binary64.ofLiteral? "Infinity" = some (.infinity false) := by decide +kernel
  have hminus : Binary64.ofLiteral? "-Infinity" = some (.infinity true) := by decide +kernel
  unfold ofNumberText
  simp only [beq_iff_eq, Bool.or_eq_true]
  split
  · next hword => rw [hword, hnan]
  split
  · next hword =>
    rcases hword with hword | hword
    · rw [hword, hplus]
    · rw [hword, hbare]
  split
  · next hword => rw [hword, hminus]
  · rfl

theorem ofNumberField_eq (value : Json) :
    (∃ e, ofNumberField value = .ok e ∧ numberOffence? value = none) ∨
      ∃ fault, ofNumberField value = .error fault ∧ numberOffence? value = some fault := by
  cases value with
  | num n => exact .inl ⟨_, rfl, rfl⟩
  | str text =>
    rw [ofNumberField, ofNumberText_eq, numberOffence?, isNumberLiteral]
    cases Binary64.ofLiteral? (withoutMarker text) with
    | some x => exact .inl ⟨_, rfl, rfl⟩
    | none => exact .inr ⟨_, rfl, rfl⟩
  | _ => exact .inr ⟨_, rfl, rfl⟩

/-- A node that offends by itself is reported, and otherwise the first of its parts that is at
fault. -/
theorem fault?_eq (value : Json) :
    fault? value = value.offence?.or (value.parts.findSome? fault?) := by
  cases value with
  | null => rfl
  | bool b => rfl
  | num n => rfl
  | str text => rfl
  | arr items =>
    match items with
    | [] => rfl
    | .str head :: args => exact fault?_ofItems head args
    | .null :: _ | .bool _ :: _ | .num _ :: _ | .arr _ :: _ | .obj _ :: _ => rfl
  | obj fields =>
    rw [fault?, ofJson_obj, offence?, parts]
    cases objectKind fields with
    | num value =>
      rcases ofNumberField_eq value with ⟨e, he, hoffence⟩ | ⟨fault, hfault, hoffence⟩
      · simp [he, hoffence]
      · simp [hfault, hoffence]
    | sym name => rfl
    | str text => rfl
    | function items =>
      rw [List.findSome?_singleton]
      rfl
    | other => rfl

/-- Reading reports the first offence among the nodes. -/
theorem fault?_eq_findSome? (value : Json) : fault? value = value.nodes.findSome? offence? := by
  induction value using parts_induction with
  | h value ih =>
    have hparts : ∀ parts : List Json, (∀ part ∈ parts, part ∈ value.parts) →
        parts.findSome? fault? = (parts.flatMap nodes).findSome? offence? := by
      intro parts
      induction parts with
      | nil => exact fun _ => rfl
      | cons part rest ihrest =>
        intro hmem
        rw [List.forall_mem_cons] at hmem
        rw [List.flatMap_cons, List.findSome?_append, ← ih part hmem.1, ← ihrest hmem.2,
          List.findSome?_cons]
        cases fault? part <;> rfl
    rw [fault?_eq, nodes_eq, List.findSome?_cons, hparts value.parts fun _ => id]
    cases value.offence? <;> rfl

theorem ofJson_eq_error_iff {value : Json} {fault : ExprFault} :
    ofJson value = .error fault ↔ fault? value = some fault := by
  rw [fault?]
  cases ofJson value <;> simp

theorem exists_ofJson_eq_ok_iff {value : Json} :
    (∃ e, ofJson value = .ok e) ↔ fault? value = none := by
  rw [fault?]
  cases ofJson value <;> simp

/-- A value is read exactly if it is grammatical, and otherwise the offence of its first node that
offends is reported. -/
theorem ofJson_accepts (value : Json) :
    ((∃ e, ofJson value = .ok e) ↔ value.Grammatical) ∧
      ∀ fault, ofJson value = .error fault ↔
        ∃ before node after, value.nodes = before ++ node :: after ∧
          node.offence? = some fault ∧ ∀ earlier ∈ before, earlier.offence? = none := by
  refine ⟨?_, fun fault => ?_⟩
  · rw [exists_ofJson_eq_ok_iff, fault?_eq_findSome?, List.findSome?_eq_none_iff, grammatical_iff]
  · rw [ofJson_eq_error_iff, fault?_eq_findSome?, List.findSome?_eq_some_iff]

end Expr

end MathCanvas
