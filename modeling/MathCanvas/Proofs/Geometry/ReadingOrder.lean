import MathCanvas.Proofs.Number.Exact
import Mathlib.Data.EReal.Basic
import Mathlib.Data.Prod.Lex

/-!
# The reading order by value

Coordinates compare by their keys, which are read off the bit patterns. This is the order of what
the numbers stand for (`Binary64.key_lt_key_iff`): the units of a number grow with its magnitude
(`Binary64.strictMono_magnitudeUnits`), the infinities enclose the finite numbers, and NaN comes
last. So positions are in order row by row, and in a row from left to right
(`Position.lt_iff_place_lt`); no position stands between the place just before a position and
the position itself (`Position.justBefore_adjacent`).
-/

namespace MathCanvas

namespace Binary64

variable {x y : Binary64}

/-! ### Units -/

/-- The units of the numbers with a magnitude. -/
def magnitudeUnits (m : Nat) : Nat :=
  (if m < hiddenBit then m else hiddenBit + m % hiddenBit) * Nat.pow 2 (m / hiddenBit - 1)

theorem units_eq_magnitudeUnits (x : Binary64) : x.units = magnitudeUnits x.magnitude := rfl

/-- The units grow with every step of the magnitude, also from the subnormal to the normal numbers
and where the fraction carries into the exponent. -/
theorem magnitudeUnits_lt_succ (m : Nat) : magnitudeUnits m < magnitudeUnits (m + 1) := by
  unfold magnitudeUnits
  by_cases hsubnormal : m + 1 < hiddenBit
  · have hm : m < hiddenBit := Nat.lt_of_succ_lt hsubnormal
    rw [if_pos hm, if_pos hsubnormal, Nat.div_eq_of_lt hm, Nat.div_eq_of_lt hsubnormal]
    exact Nat.mul_lt_mul_of_pos_right (Nat.lt_succ_self m) (Nat.two_pow_pos _)
  by_cases hfirst : m + 1 = hiddenBit
  · obtain rfl : m = hiddenBit - 1 := by omega
    decide
  have hnormal : hiddenBit ≤ m := by omega
  have hquotient : 1 ≤ m / hiddenBit := Nat.div_pos hnormal (by decide)
  have hmod : m % hiddenBit < hiddenBit := Nat.mod_lt _ (by decide)
  rw [if_neg (Nat.not_lt.mpr hnormal), if_neg hsubnormal]
  by_cases hcarry : m % hiddenBit + 1 = hiddenBit
  · -- the fraction is full: it starts again at zero, and its last place counts twice as much
    have hdiv : (m + 1) / hiddenBit - 1 = m / hiddenBit - 1 + 1 := by
      simp only [hiddenBit] at *; omega
    have hzero : (m + 1) % hiddenBit = 0 := by simp only [hiddenBit] at *; omega
    have hpow : Nat.pow 2 (m / hiddenBit - 1 + 1) = 2 * Nat.pow 2 (m / hiddenBit - 1) :=
      Nat.pow_succ'
    rw [hdiv, hzero, hpow, Nat.add_zero, ← Nat.mul_assoc]
    exact Nat.mul_lt_mul_of_pos_right (by omega) (Nat.two_pow_pos _)
  · have hdiv : (m + 1) / hiddenBit = m / hiddenBit := by simp only [hiddenBit] at *; omega
    have hsucc : (m + 1) % hiddenBit = m % hiddenBit + 1 := by simp only [hiddenBit] at *; omega
    rw [hdiv, hsucc]
    exact Nat.mul_lt_mul_of_pos_right (by omega) (Nat.two_pow_pos _)

theorem strictMono_magnitudeUnits : StrictMono magnitudeUnits :=
  strictMono_nat_of_lt_succ magnitudeUnits_lt_succ

/-- A sign turns the order of the magnitudes around for keys and units alike, and a zero has no sign
in either. -/
theorem key_lt_key_iff_signedUnits (hx : x.isNaN = false) (hy : y.isNaN = false) :
    x.key < y.key ↔ x.signedUnits < y.signedUnits := by
  have hlt := strictMono_magnitudeUnits.lt_iff_lt (a := x.magnitude) (b := y.magnitude)
  have hgt := strictMono_magnitudeUnits.lt_iff_lt (a := y.magnitude) (b := x.magnitude)
  have hpositive : ∀ m, 0 < magnitudeUnits m ↔ 0 < m := fun m =>
    strictMono_magnitudeUnits.lt_iff_lt (a := 0)
  have hxpos := hpositive x.magnitude
  have hypos := hpositive y.magnitude
  rw [key_of_not_nan hx, key_of_not_nan hy, signedUnits, signedUnits, units_eq_magnitudeUnits,
    units_eq_magnitudeUnits]
  cases x.isNegative <;> cases y.isNegative <;>
    simp only [Bool.false_eq_true, if_true, if_false] <;> omega

/-! ### Values -/

/-- The extended real number that a number stands for, unless it is NaN. -/
noncomputable def toEReal (x : Binary64) : EReal :=
  if x.isInfinite then if x.isNegative then ⊥ else ⊤
  else ((x.signedUnits / unitsPerOne : ℝ) : EReal)

/-- What a number stands for, where NaN is put beyond everything else. -/
noncomputable def value (x : Binary64) : WithTop EReal :=
  if x.isNaN then ⊤ else WithTop.some x.toEReal

theorem value_of_isNaN (h : x.isNaN = true) : x.value = ⊤ := by
  rw [value, if_pos h]

theorem value_of_not_nan (h : x.isNaN = false) : x.value = WithTop.some x.toEReal := by
  rw [value, h, if_neg Bool.false_ne_true]

theorem infinity_or_finite (h : x.isNaN = false) :
    (∃ negative, x = infinity negative) ∨ x.isFinite = true := by
  rcases Nat.lt_or_eq_of_le (isNaN_eq_false_iff.mp h) with hlt | heq
  · exact .inr (decide_eq_true hlt)
  · exact .inl ⟨x.isNegative, eq_infinity_iff.mpr ⟨decide_eq_true heq, rfl⟩⟩

theorem toEReal_infinity (negative : Bool) :
    (infinity negative).toEReal = if negative then ⊥ else ⊤ := by
  obtain ⟨hinfinite, hsign⟩ := eq_infinity_iff.mp (rfl : infinity negative = infinity negative)
  rw [toEReal, if_pos hinfinite, hsign]

theorem toEReal_of_isFinite (h : x.isFinite = true) :
    x.toEReal = ((x.signedUnits / unitsPerOne : ℝ) : EReal) := by
  have hlt : x.magnitude < infinityMagnitude := of_decide_eq_true h
  rw [toEReal, isInfinite, decide_eq_false (Nat.ne_of_lt hlt), if_neg Bool.false_ne_true]

theorem toEReal_lt_toEReal_iff (hx : x.isFinite = true) (hy : y.isFinite = true) :
    x.toEReal < y.toEReal ↔ x.signedUnits < y.signedUnits := by
  have hunit : (0 : ℝ) < unitsPerOne := Nat.cast_pos.mpr unitsPerOne_pos
  rw [toEReal_of_isFinite hx, toEReal_of_isFinite hy, EReal.coe_lt_coe_iff,
    div_lt_div_iff_of_pos_right hunit, Int.cast_lt]

theorem key_infinity (negative : Bool) : (infinity negative).key =
    if negative then -(infinityMagnitude : Int) else infinityMagnitude :=
  key_ofMagnitude negative (Nat.le_refl _)

/-- The finite numbers lie between the infinities. -/
theorem key_bounds_of_isFinite (h : x.isFinite = true) :
    -(infinityMagnitude : Int) < x.key ∧ x.key < infinityMagnitude := by
  have hlt : x.magnitude < infinityMagnitude := of_decide_eq_true h
  rw [key_of_not_nan (isNaN_of_isFinite h)]
  split <;> omega

theorem key_lt_key_iff_toEReal (hx : x.isNaN = false) (hy : y.isNaN = false) :
    x.key < y.key ↔ x.toEReal < y.toEReal := by
  rcases infinity_or_finite hx with ⟨s, rfl⟩ | hx' <;>
    rcases infinity_or_finite hy with ⟨t, rfl⟩ | hy'
  · have hpositive : 0 < infinityMagnitude := by decide
    rw [key_infinity, key_infinity, toEReal_infinity, toEReal_infinity]
    cases s <;> cases t <;> simp [hpositive]
  · obtain ⟨hlow, hhigh⟩ := key_bounds_of_isFinite hy'
    rw [key_infinity, toEReal_infinity, toEReal_of_isFinite hy']
    cases s
    · exact iff_of_false (Int.not_lt.mpr (Int.le_of_lt hhigh)) not_top_lt
    · exact iff_of_true hlow (EReal.bot_lt_coe _)
  · obtain ⟨hlow, hhigh⟩ := key_bounds_of_isFinite hx'
    rw [key_infinity, toEReal_infinity, toEReal_of_isFinite hx']
    cases t
    · exact iff_of_true hhigh (EReal.coe_lt_top _)
    · exact iff_of_false (Int.not_lt.mpr (Int.le_of_lt hlow)) not_lt_bot
  · rw [key_lt_key_iff_signedUnits hx hy, toEReal_lt_toEReal_iff hx' hy']

/-- No key is beyond that of NaN. -/
theorem key_lt_of_not_nan (h : x.isNaN = false) : x.key < signBit := by
  have hlt := magnitude_lt x
  rw [key_of_not_nan h]
  split <;> omega

/-- Keys compare as values do. -/
theorem key_lt_key_iff (x y : Binary64) : x.key < y.key ↔ x.value < y.value := by
  cases hx : x.isNaN <;> cases hy : y.isNaN
  · rw [key_lt_key_iff_toEReal hx hy, value_of_not_nan hx, value_of_not_nan hy,
      WithTop.coe_lt_coe]
  · rw [isNaN_iff_key_eq.mp hy, value_of_isNaN hy, value_of_not_nan hx]
    exact iff_of_true (key_lt_of_not_nan hx) (WithTop.coe_lt_top _)
  · rw [isNaN_iff_key_eq.mp hx, value_of_isNaN hx]
    exact iff_of_false (Int.not_lt.mpr (Int.le_of_lt (key_lt_of_not_nan hy))) not_top_lt
  · rw [isNaN_iff_key_eq.mp hx, isNaN_iff_key_eq.mp hy, value_of_isNaN hx, value_of_isNaN hy]
    exact iff_of_false (Int.lt_irrefl _) (lt_irrefl _)

theorem key_eq_key_iff (x y : Binary64) : x.key = y.key ↔ x.value = y.value := by
  have hlt := not_congr (key_lt_key_iff x y)
  have hgt := not_congr (key_lt_key_iff y x)
  rw [Int.not_lt, not_lt] at hlt hgt
  rw [Int.le_antisymm_iff, le_antisymm_iff, hlt, hgt]

end Binary64

namespace Position

/-- Where a position stands in the reading order: its row, and then its place in the row. -/
noncomputable def place (p : Position) : Lex (WithTop EReal × WithTop EReal) :=
  toLex (p.y.value, p.x.value)

/-- Positions are in order by the values of their coordinates, row by row. -/
theorem lt_iff_place_lt (p q : Position) : p < q ↔ p.place < q.place := by
  rw [lt_def, place, place, Prod.Lex.toLex_lt_toLex, Binary64.key_lt_key_iff,
    Binary64.key_lt_key_iff, Binary64.key_eq_key_iff]

/-- The place just before a position is before it and nothing stands between the two, in the order
by rows and, within a row, by value. -/
theorem justBefore_adjacent {p : Position} (hnan : p.x.isNaN = false)
    (hlow : p.x ≠ .infinity true) :
    p.justBefore < p ∧ (∀ q : Position, ¬(p.justBefore < q ∧ q < p)) ∧
      ∀ q r : Position, q < r ↔ q.place < r.place := by
  have hinterior : p.Interior := ⟨hnan, hlow⟩
  refine ⟨justBefore_lt hinterior, ?_, lt_iff_place_lt⟩
  rintro q ⟨hbefore, hlt⟩
  -- what is before the position is at or before the place just before it
  exact not_le.mpr hbefore ((lt_iff_le_justBefore hinterior).mp hlt)

/-- Nothing stands between zero and the negative number nearest to it, in the last row of all. -/
theorem justBefore_adjacent_zero :
    let p : Position := ⟨.zero false, .nan⟩
    let q : Position := ⟨.ofMagnitude true 1, .nan⟩
    p.x.isNaN = false ∧ p.x ≠ .infinity true ∧ p.justBefore = q ∧ q < p ∧
      ∀ r : Position, ¬(q < r ∧ r < p) := by
  intro p q
  have hnan : p.x.isNaN = false := by decide
  have hlow : p.x ≠ .infinity true := by decide
  obtain ⟨hbefore, hbetween, -⟩ := justBefore_adjacent hnan hlow
  exact ⟨hnan, hlow, rfl, hbefore, hbetween⟩

end Position

end MathCanvas
