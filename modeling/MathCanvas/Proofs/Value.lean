import MathCanvas.Binding.Slot
import MathCanvas.Proofs.Number.Magnitude

/-!
# Values that are the same

`SlotValue.valueEq` is not reflexive: a value with a NaN in it is not equal to itself. What two
sides that follow each other agree on is `SlotValue.same`, in which numbers are compared by their
keys: the two zeros are one number, and all NaNs are one. It is an equivalence, and values that are
equal are the same (`SlotValue.same_of_valueEq`); without a NaN, values that are the same are equal
(`SlotValue.valueEq_of_same`).
-/

namespace MathCanvas

namespace Expr

section Agree

variable {same same' : Binary64 → Binary64 → Bool}

mutual

theorem agree_refl (h : ∀ x, same x x = true) : (a : Expr) → agree same a a = true
  | .number x => by rw [agree]; exact h x
  | .symbol _ => by rw [agree, beq_self_eq_true]
  | .string _ => by rw [agree, beq_self_eq_true]
  | .app _ args => by rw [agree, beq_self_eq_true, Bool.true_and]; exact agreeAll_refl h args

theorem agreeAll_refl (h : ∀ x, same x x = true) : (l : List Expr) → agreeAll same l l = true
  | [] => by rw [agreeAll]
  | a :: rest => by rw [agreeAll, agree_refl h a, agreeAll_refl h rest, Bool.and_self]

end

mutual

/-- A coarser test of numbers finds more trees to agree. -/
theorem agree_mono (h : ∀ x y, same x y = true → same' x y = true) :
    (a b : Expr) → agree same a b = true → agree same' a b = true
  | .number x, .number y => by simp only [agree]; exact h x y
  | .symbol _, .symbol _ | .string _, .string _ => by simp only [agree]; exact id
  | .app _ args, .app _ args' => by
    simp only [agree, Bool.and_eq_true]
    rintro ⟨hhead, hargs⟩
    exact ⟨hhead, agreeAll_mono h args args' hargs⟩
  | .number _, .symbol _ | .number _, .string _ | .number _, .app _ _
  | .symbol _, .number _ | .symbol _, .string _ | .symbol _, .app _ _
  | .string _, .number _ | .string _, .symbol _ | .string _, .app _ _
  | .app _ _, .number _ | .app _ _, .symbol _ | .app _ _, .string _ => by simp [agree]

theorem agreeAll_mono (h : ∀ x y, same x y = true → same' x y = true) :
    (l m : List Expr) → agreeAll same l m = true → agreeAll same' l m = true
  | [], [] => by simp only [agreeAll]; exact id
  | [], _ :: _ | _ :: _, [] => by simp [agreeAll]
  | a :: rest, b :: rest' => by
    simp only [agreeAll, Bool.and_eq_true]
    rintro ⟨ha, hrest⟩
    exact ⟨agree_mono h a b ha, agreeAll_mono h rest rest' hrest⟩

end

mutual

theorem agree_symm (h : ∀ x y, same x y = true → same y x = true) :
    (a b : Expr) → agree same a b = true → agree same b a = true
  | .number x, .number y => by simp only [agree]; exact h x y
  | .symbol _, .symbol _ | .string _, .string _ => by
    simp only [agree, beq_iff_eq]; exact Eq.symm
  | .app _ args, .app _ args' => by
    simp only [agree, Bool.and_eq_true, beq_iff_eq]
    rintro ⟨hhead, hargs⟩
    exact ⟨hhead.symm, agreeAll_symm h args args' hargs⟩
  | .number _, .symbol _ | .number _, .string _ | .number _, .app _ _
  | .symbol _, .number _ | .symbol _, .string _ | .symbol _, .app _ _
  | .string _, .number _ | .string _, .symbol _ | .string _, .app _ _
  | .app _ _, .number _ | .app _ _, .symbol _ | .app _ _, .string _ => by simp [agree]

theorem agreeAll_symm (h : ∀ x y, same x y = true → same y x = true) :
    (l m : List Expr) → agreeAll same l m = true → agreeAll same m l = true
  | [], [] => id
  | [], _ :: _ | _ :: _, [] => by simp [agreeAll]
  | a :: rest, b :: rest' => by
    simp only [agreeAll, Bool.and_eq_true]
    rintro ⟨ha, hrest⟩
    exact ⟨agree_symm h a b ha, agreeAll_symm h rest rest' hrest⟩

end

mutual

theorem agree_trans (h : ∀ x y z, same x y = true → same y z = true → same x z = true) :
    (a b c : Expr) → agree same a b = true → agree same b c = true → agree same a c = true
  | .number x, b, .number z => by
    cases b <;> simp only [agree, Bool.false_eq_true, false_implies, implies_true]
    exact h x _ z
  | .symbol _, b, .symbol _ | .string _, b, .string _ => by
    cases b <;> simp only [agree, Bool.false_eq_true, false_implies, implies_true, beq_iff_eq]
    exact Eq.trans
  | .app _ args, b, .app _ args'' => by
    cases b <;> simp only [agree, Bool.false_eq_true, false_implies, implies_true,
      Bool.and_eq_true, beq_iff_eq]
    rintro ⟨hhead, hargs⟩ ⟨hhead', hargs'⟩
    exact ⟨hhead.trans hhead', agreeAll_trans h args _ args'' hargs hargs'⟩
  | .number _, b, .symbol _ | .number _, b, .string _ | .number _, b, .app _ _
  | .symbol _, b, .number _ | .symbol _, b, .string _ | .symbol _, b, .app _ _
  | .string _, b, .number _ | .string _, b, .symbol _ | .string _, b, .app _ _
  | .app _ _, b, .number _ | .app _ _, b, .symbol _ | .app _ _, b, .string _ => by
    cases b <;> simp [agree]

theorem agreeAll_trans (h : ∀ x y z, same x y = true → same y z = true → same x z = true) :
    (l m n : List Expr) → agreeAll same l m = true → agreeAll same m n = true →
      agreeAll same l n = true
  | [], [], _ => fun _ => id
  | [], _ :: _, _ | _ :: _, [], _ => by simp [agreeAll]
  | _ :: _, _ :: _, [] => by simp [agreeAll]
  | a :: rest, b :: rest', c :: rest'' => by
    simp only [agreeAll, Bool.and_eq_true]
    rintro ⟨ha, hrest⟩ ⟨hb, hrest'⟩
    exact ⟨agree_trans h a b c ha hb, agreeAll_trans h rest rest' rest'' hrest hrest'⟩

end

end Agree

mutual

/-- Whether one of the numbers in an expression is a NaN. -/
def hasNaN : Expr → Bool
  | .number x => x.isNaN
  | .symbol _ | .string _ => false
  | .app _ args => anyHasNaN args

def anyHasNaN : List Expr → Bool
  | [] => false
  | a :: rest => hasNaN a || anyHasNaN rest

end

mutual

/-- Without a NaN, numbers with the same keys are equal. -/
theorem valueEq_of_agree_key : (a b : Expr) → a.hasNaN = false →
    agree (fun x y => decide (x.key = y.key)) a b = true → a.valueEq b = true
  | .number x, .number y => by
    simp only [hasNaN, agree, valueEq, Binary64.valueEq, decide_eq_true_eq, Bool.eq_false_iff,
      ne_eq, Binary64.isNaN_iff_key_eq, Bool.and_eq_true, Bool.not_eq_true']
    exact fun hx hkey => ⟨⟨hx, hkey ▸ hx⟩, hkey⟩
  | .symbol _, .symbol _ | .string _, .string _ => by
    simp only [agree, valueEq]; exact fun _ => id
  | .app _ args, .app _ args' => by
    simp only [hasNaN, agree, valueEq, Bool.and_eq_true]
    rintro hargs ⟨hhead, hagree⟩
    exact ⟨hhead, valueEqAll_of_agreeAll_key args args' hargs hagree⟩
  | .number _, .symbol _ | .number _, .string _ | .number _, .app _ _
  | .symbol _, .number _ | .symbol _, .string _ | .symbol _, .app _ _
  | .string _, .number _ | .string _, .symbol _ | .string _, .app _ _
  | .app _ _, .number _ | .app _ _, .symbol _ | .app _ _, .string _ => by simp [agree]

theorem valueEqAll_of_agreeAll_key : (l m : List Expr) → anyHasNaN l = false →
    agreeAll (fun x y => decide (x.key = y.key)) l m = true →
      agreeAll Binary64.valueEq l m = true
  | [], [] => fun _ => id
  | [], _ :: _ | _ :: _, [] => by simp [agreeAll]
  | a :: rest, b :: rest' => by
    simp only [anyHasNaN, agreeAll, Bool.or_eq_false_iff, Bool.and_eq_true]
    rintro ⟨ha, hrest⟩ ⟨hab, hagree⟩
    exact ⟨valueEq_of_agree_key a b ha hab, valueEqAll_of_agreeAll_key rest rest' hrest hagree⟩

end

end Expr

namespace SlotValue

/-- Whether two values agree, with numbers compared by their keys. -/
def same : SlotValue → SlotValue → Prop
  | .free, .free => True
  | .unset, .unset => True
  | .defined a, .defined b => Expr.agree (fun x y => decide (x.key = y.key)) a b = true
  | _, _ => False

instance : ∀ v u : SlotValue, Decidable (v.same u)
  | .free, .free | .unset, .unset => .isTrue trivial
  | .defined _, .defined _ => inferInstanceAs (Decidable (_ = true))
  | .free, .unset | .free, .defined _ | .unset, .free | .unset, .defined _ | .defined _, .free
  | .defined _, .unset => .isFalse id

theorem same_refl (v : SlotValue) : v.same v := by
  cases v with
  | free => trivial
  | unset => trivial
  | defined a => exact Expr.agree_refl (fun x => decide_eq_true rfl) a

theorem same_of_eq {v w : SlotValue} (h : v = w) : v.same w := h ▸ same_refl v

theorem same_symm {v w : SlotValue} (h : v.same w) : w.same v := by
  cases v <;> cases w <;> try exact h
  exact Expr.agree_symm (fun x y hxy => decide_eq_true (of_decide_eq_true hxy).symm) _ _ h

theorem same_trans {u v w : SlotValue} (h : u.same v) (h' : v.same w) : u.same w := by
  cases u <;> cases v <;> cases w <;> first | exact h | exact h' | exact h.elim | skip
  exact Expr.agree_trans (fun x y z hxy hyz =>
    decide_eq_true ((of_decide_eq_true hxy).trans (of_decide_eq_true hyz))) _ _ _ h h'

theorem valueEq_comm (v w : SlotValue) : v.valueEq w = w.valueEq v := by
  have hsymm : ∀ x y : Binary64, Binary64.valueEq x y = true → Binary64.valueEq y x = true := by
    intro x y h
    simp only [Binary64.valueEq, Bool.and_eq_true, decide_eq_true_eq] at h ⊢
    exact ⟨⟨h.1.2, h.1.1⟩, h.2.symm⟩
  cases v <;> cases w <;> try rfl
  exact Bool.eq_iff_iff.mpr ⟨Expr.agree_symm hsymm _ _, Expr.agree_symm hsymm _ _⟩

theorem valueEq_trans {u v w : SlotValue} (h : u.valueEq v = true) (h' : v.valueEq w = true) :
    u.valueEq w = true := by
  have htrans : ∀ x y z : Binary64, Binary64.valueEq x y = true → Binary64.valueEq y z = true →
      Binary64.valueEq x z = true := by
    intro x y z h h'
    simp only [Binary64.valueEq, Bool.and_eq_true, decide_eq_true_eq] at h h' ⊢
    exact ⟨⟨h.1.1, h'.1.2⟩, h.2.trans h'.2⟩
  cases u <;> cases v <;> cases w <;>
    first | rfl | exact absurd h Bool.false_ne_true | exact absurd h' Bool.false_ne_true | skip
  exact Expr.agree_trans htrans _ _ _ h h'

/-- Values that are equal are the same. The converse fails for a NaN only. -/
theorem same_of_valueEq {v w : SlotValue} (h : v.valueEq w = true) : v.same w := by
  cases v <;> cases w <;> first | trivial | exact absurd h Bool.false_ne_true | skip
  refine Expr.agree_mono (fun x y hxy => ?_) _ _ h
  simp only [Binary64.valueEq, Bool.and_eq_true] at hxy
  exact hxy.2

/-- Whether there is a NaN in a value. -/
def hasNaN : SlotValue → Bool
  | .free | .unset => false
  | .defined a => a.hasNaN

/-- Without a NaN, values that are the same are equal. -/
theorem valueEq_of_same {v w : SlotValue} (hv : v.hasNaN = false) (h : v.same w) :
    v.valueEq w = true := by
  cases v <;> cases w <;> first | rfl | exact h.elim | skip
  exact Expr.valueEq_of_agree_key _ _ hv h

theorem same_unset_iff {v : SlotValue} : v.same .unset ↔ v = .unset := by
  cases v <;> simp [same]

end SlotValue

end MathCanvas
