import MathCanvas.Expr.Codec
import MathCanvas.Proofs.Json.Depth
import MathCanvas.Proofs.Number.Exact

/-!
# Expressions survive the way through JSON

Reading what `Expr.toJson` writes gives the expression back, but for the numbers that JSON does not
tell apart (`Expr.ofJson_toJson`): `Expr.canonical` holds the numbers that are left. It holds since
a bare string is a symbol exactly if it is not reserved (`Expr.isReservedAtom_eq_false_iff`).
Of all the forms in which an expression can be read the written one nests least
(`Expr.depth_toJson_le`).
-/

namespace MathCanvas

namespace Expr

/-! ### Canonical expressions -/

mutual

/-- The expression with canonical numbers. -/
def canonical : Expr → Expr
  | .number x => .number x.canonical
  | .symbol name => .symbol name
  | .string text => .string text
  | .app head args => .app head (canonicalAll args)

def canonicalAll : List Expr → List Expr
  | [] => []
  | arg :: rest => canonical arg :: canonicalAll rest

end

/-! ### Bare strings -/

variable {name text : String}

/-- A string is a symbol exactly if it is not reserved. -/
theorem isReservedAtom_eq_false_iff : isReservedAtom name = false ↔ ofAtom name = .symbol name := by
  rw [isReservedAtom, ofAtom]
  cases numberAtom? name with
  | some x => simp
  | none =>
    cases unquoted? name with
    | some inner => simp
    | none => simp

/-- Between single quotes any text stands for itself. -/
theorem unquoted?_quoted (text : String) : unquoted? ("'" ++ text ++ "'") = some text := by
  have hchars : ("'" ++ text ++ "'").toList = '\x27' :: (text.toList ++ ['\x27']) := by simp
  rw [unquoted?, hchars]
  show (if (text.toList ++ ['\x27']).getLast? = some '\x27'
    then some (String.ofList (text.toList ++ ['\x27']).dropLast) else none) = some text
  rw [List.getLast?_concat, if_pos rfl, List.dropLast_concat, String.ofList_toList]

theorem numberAtom?_quoted (text : String) : numberAtom? ("'" ++ text ++ "'") = none := by
  have hne {word : String} (hword : word.toList.head? ≠ some '\x27') :
      (("'" ++ text ++ "'") == word) = false := by
    rw [beq_eq_false_iff_ne]
    rintro rfl
    exact hword (by simp)
  rw [numberAtom?, hne (by decide), hne (by decide), hne (by decide)]
  rfl

theorem ofAtom_quoted (text : String) : ofAtom ("'" ++ text ++ "'") = .string text := by
  rw [ofAtom, numberAtom?_quoted, unquoted?_quoted]

/-! ### Reading what is written -/

theorem numberToJson_of_isZero {x : Binary64} (h : x.isZero = true) :
    numberToJson x = .num (.int 0) := by
  have hfinite := Binary64.isFinite_of_isZero h
  have hinfinite : x.isInfinite = false := by
    rw [Binary64.isFinite, decide_eq_true_eq] at hfinite
    exact decide_eq_false (Nat.ne_of_lt hfinite)
  rw [numberToJson, Binary64.isNaN_of_isFinite hfinite, hinfinite, Binary64.toInt?_of_isZero h]
  rfl

theorem ofJson_numberToJson (x : Binary64) :
    ofJson (numberToJson x) = .ok (.number x.canonical) := by
  unfold numberToJson
  split
  · next hnan =>
    rw [Binary64.canonical, if_pos hnan]
    rfl
  next hnan =>
  rw [Bool.not_eq_true] at hnan
  split
  · next hinfinite =>
    rw [Binary64.eq_infinity_iff.mpr ⟨hinfinite, rfl⟩]
    cases x.isNegative <;> rfl
  -- a number that is written as itself is not zero
  have hself (hne : x.toInt? ≠ some 0) : x.canonical = x := by
    apply Binary64.canonical_eq_self hnan
    exact Bool.eq_false_iff.mpr fun hzero => hne (Binary64.toInt?_of_isZero hzero)
  split
  · next n hint =>
    split
    · rw [ofJson, JsonNumber.toBinary64, Binary64.ofInt_of_toInt? hint]
    · next hlarge =>
      rw [hself, ofJson, JsonNumber.toBinary64]
      rw [hint, Ne, Option.some_inj]
      omega
  · next hnone =>
    rw [hself, ofJson, JsonNumber.toBinary64]
    rw [hnone]
    exact Option.some_ne_none 0 ∘ Eq.symm

mutual

/-- What is written is read as the same expression, with canonical numbers. -/
theorem ofJson_toJson : (e : Expr) → ofJson e.toJson = .ok e.canonical
  | .number x => ofJson_numberToJson x
  | .symbol name => by
    rw [toJson]
    cases hreserved : isReservedAtom name with
    | true => rfl
    | false => 
      show Except.ok (ofAtom name) = _
      rw [isReservedAtom_eq_false_iff.mp hreserved, canonical]
  | .string text => by
    rw [toJson, ofJson, ofAtom_quoted, canonical]
  | .app head args => by
    rw [toJson, ofJson, ofItems, ofArgs_argsToJson args, canonical]
    rfl

theorem ofArgs_argsToJson : (args : List Expr) → ofArgs (argsToJson args) = .ok (canonicalAll args)
  | [] => rfl
  | arg :: rest => by
    rw [argsToJson, ofArgs, ofJson_toJson arg, ofArgs_argsToJson rest, canonicalAll]

end

theorem numberToJson_canonical (x : Binary64) :
    numberToJson x.canonical = numberToJson x := by
  cases hnan : x.isNaN with
  | true =>
    rw [numberToJson, if_pos (x.isNaN_canonical.trans hnan), numberToJson, if_pos hnan]
  | false =>
    cases hzero : x.isZero with
    | true =>
      rw [numberToJson_of_isZero (x.isZero_canonical.trans hzero), numberToJson_of_isZero hzero]
    | false => rw [Binary64.canonical_eq_self hnan hzero]

mutual

/-- Canonical numbers are written as the numbers they stand for. -/
theorem toJson_canonical : (e : Expr) → e.canonical.toJson = e.toJson
  | .number x => numberToJson_canonical x
  | .symbol _ | .string _ => rfl
  | .app head args => by rw [canonical, toJson, toJson, argsToJson_canonicalAll args]

theorem argsToJson_canonicalAll :
    (args : List Expr) → argsToJson (canonicalAll args) = argsToJson args
  | [] => rfl
  | arg :: rest => by
    rw [canonicalAll, argsToJson, argsToJson, toJson_canonical arg, argsToJson_canonicalAll rest]

end

/-! ### Depth -/

theorem depth_numberToJson (x : Binary64) : (numberToJson x).depth = 0 := by
  unfold numberToJson
  split
  · rfl
  split
  · rfl
  split
  · split <;> rfl
  · rfl

theorem depth_toJson_symbol_le (name : String) : (toJson (.symbol name)).depth ≤ 1 := by
  rw [toJson]
  split
  · exact Nat.le_refl 1
  · exact Nat.zero_le 1

/-- What a bare string stands for is written without nesting. -/
theorem depth_toJson_ofAtom (text : String) : (ofAtom text).toJson.depth = 0 := by
  cases hreserved : isReservedAtom text with
  | false =>
    rw [isReservedAtom_eq_false_iff.mp hreserved, toJson, hreserved]
    rfl
  | true =>
    rw [ofAtom]
    split
    · exact depth_numberToJson _
    split
    · rfl
    · simp_all [isReservedAtom]

theorem depth_toJson_ofNumberField {value : Json} {e : Expr} (h : ofNumberField value = .ok e) :
    e.toJson.depth = 0 := by
  have hnumber : ∃ x, e = .number x := by
    unfold ofNumberField ofNumberText at h
    grind
  obtain ⟨x, rfl⟩ := hnumber
  exact depth_numberToJson x

theorem depth_toJson_ofScalarFields? {fields : List (String × Json)} {e : Expr}
    (h : ofScalarFields? fields = some (.ok e)) : e.toJson.depth ≤ 1 := by
  unfold ofScalarFields? at h
  split at h
  · next value _ =>
    rw [Option.some_inj] at h
    rw [depth_toJson_ofNumberField h]
    exact Nat.zero_le 1
  split at h
  · cases h
    exact depth_toJson_symbol_le _
  split at h
  · cases h
    exact Nat.zero_le 1
  · cases h

theorem ofApplicationField_cons (name : String) (value : Json) (rest : List (String × Json)) :
    ofApplicationField ((name, value) :: rest) =
      match ofApplicationField rest with
      | some later => some later
      | none =>
        if name == "fn" then
          match value with
          | .arr items => some (some (ofItems items))
          | _ => some none
        else none := by
  cases value <;> rfl

mutual

/-- An expression is written with no more nesting than it is read from. -/
theorem depth_toJson_le {e : Expr} : (value : Json) → ofJson value = .ok e →
    e.toJson.depth ≤ value.depth
  | .null, h | .bool _, h => by cases h
  | .num n, h => by
    cases h
    exact Nat.le_of_eq (depth_numberToJson _)
  | .str text, h => by
    cases h
    exact Nat.le_of_eq (depth_toJson_ofAtom text)
  | .arr items, h => by
    rw [ofJson] at h
    exact depth_toJson_le_of_ofItems items h
  | .obj fields, h => by
    rw [ofJson] at h
    split at h
    · next result hscalar =>
      subst h
      exact Nat.le_trans (depth_toJson_ofScalarFields? hscalar) (Nat.le_add_left 1 _)
    · split at h
      · next result hfield =>
        subst h
        exact Nat.le_succ_of_le (depth_toJson_le_of_ofApplicationField fields hfield)
      · cases h

theorem depth_toJson_le_of_ofItems {e : Expr} : (items : List Json) → ofItems items = .ok e →
    e.toJson.depth ≤ Json.depthItems items + 1
  | [], h => by cases h
  | .str head :: rest, h => by
    rw [ofItems] at h
    cases hargs : ofArgs rest with
    | error fault =>
      rw [hargs] at h
      cases h
    | ok args =>
      rw [hargs] at h
      cases h
      have hrest := depthItems_le_of_ofArgs rest hargs
      have hhead : (Json.str head).depth = 0 := rfl
      rw [toJson, Json.depth, Json.depthItems, Json.depthItems, hhead]
      omega
  | .null :: _, h | .bool _ :: _, h | .num _ :: _, h | .arr _ :: _, h | .obj _ :: _, h => by
    cases h

theorem depthItems_le_of_ofArgs {args : List Expr} : (items : List Json) →
    ofArgs items = .ok args → Json.depthItems (argsToJson args) ≤ Json.depthItems items
  | [], h => by
    cases h
    exact Nat.le_refl 0
  | item :: rest, h => by
    rw [ofArgs] at h
    split at h
    · cases h
    · next arg harg =>
      split at h
      · cases h
      · next args hargs =>
        cases h
        have hitem := depth_toJson_le item harg
        have hrest := depthItems_le_of_ofArgs rest hargs
        rw [argsToJson, Json.depthItems, Json.depthItems]
        omega

theorem depth_toJson_le_of_ofApplicationField {e : Expr} : (fields : List (String × Json)) →
    ofApplicationField fields = some (some (.ok e)) → e.toJson.depth ≤ Json.depthFields fields
  | [], h => by cases h
  | (name, value) :: rest, h => by
    rw [ofApplicationField_cons] at h
    rw [Json.depthFields]
    split at h
    · next later hlater =>
      rw [h] at hlater
      exact Nat.le_trans (depth_toJson_le_of_ofApplicationField rest hlater) (Nat.le_max_right _ _)
    · rw [Option.ite_none_right_eq_some] at h
      obtain ⟨-, h⟩ := h
      split at h
      · next items =>
        rw [Option.some_inj, Option.some_inj] at h
        exact Nat.le_trans (depth_toJson_le_of_ofItems items h) (Nat.le_max_left _ _)
      · cases h

end

end Expr

end MathCanvas
