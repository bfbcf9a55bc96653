import MathCanvas.Proofs.Number.Magnitude

/-!
# Numbers that need no rounding

Rounding the units of a finite number gives the number back (`Binary64.ofUnits_units`), so that an
integer is written to and read from binary64 without loss (`Binary64.ofInt_of_toInt?`). What is
lost on the way is the sign of zero, as the bits of a NaN are lost with its name:
`Binary64.canonical` is the number that is left.
-/

namespace MathCanvas

namespace Binary64

variable {x y : Binary64} {n : Int}

/-! ### Rounding what is exact -/

theorem divNearestEven_mul (n : Nat) {den : Nat} (hden : 0 < den) :
    divNearestEven (n * den) den = n := by
  rw [divNearestEven, Nat.mul_div_cancel _ hden, Nat.mul_mod_left]
  exact if_pos hden

/-- The logarithm of the units of a normal number is that of its hidden bit. -/
theorem log2_units (hnormal : hiddenBit ≤ x.magnitude) : Nat.log2 x.units = 52 + x.scale := by
  have hmod : x.magnitude % hiddenBit < hiddenBit := Nat.mod_lt _ (by decide)
  have hlow : hiddenBit ≤ x.significand := by
    rw [significand, if_neg (Nat.not_lt.mpr hnormal)]
    exact Nat.le_add_right _ _
  have hhigh : x.significand < 2 * hiddenBit := by
    rw [significand, if_neg (Nat.not_lt.mpr hnormal)]
    omega
  have hscale : 0 < 2 ^ x.scale := Nat.two_pow_pos _
  have hunits : x.units = x.significand * 2 ^ x.scale := rfl
  have hne : x.units ≠ 0 := by
    rw [hunits]
    exact Nat.mul_ne_zero (by simp only [hiddenBit] at hlow; omega) (Nat.ne_of_gt hscale)
  rw [Nat.log2_eq_iff hne, hunits]
  constructor
  · calc 2 ^ (52 + x.scale) = hiddenBit * 2 ^ x.scale := by rw [Nat.pow_add]
      _ ≤ x.significand * 2 ^ x.scale := Nat.mul_le_mul_right _ hlow
  · calc x.significand * 2 ^ x.scale < 2 * hiddenBit * 2 ^ x.scale :=
          Nat.mul_lt_mul_of_pos_right hhigh hscale
      _ = 2 ^ (52 + x.scale + 1) := by
          rw [show 52 + x.scale + 1 = 53 + x.scale by omega, Nat.pow_add]
          rfl

/-- The units of a finite number are the units of nothing else. -/
theorem nearestMagnitude_units (hfinite : x.isFinite = true) :
    nearestMagnitude x.units 1 = x.magnitude := by
  have hlt : x.magnitude < infinityMagnitude := of_decide_eq_true hfinite
  rw [nearestMagnitude, Nat.div_one, Nat.one_mul]
  by_cases hnormal : hiddenBit ≤ x.magnitude
  · have hquotient : 1 ≤ x.magnitude / hiddenBit :=
      (Nat.le_div_iff_mul_le (by decide)).mpr (by simpa using hnormal)
    have hparts := Nat.div_add_mod x.magnitude hiddenBit
    rw [log2_units hnormal, Nat.add_sub_cancel_left]
    show min (x.scale * hiddenBit + divNearestEven (x.significand * 2 ^ x.scale) (2 ^ x.scale))
      infinityMagnitude = x.magnitude
    rw [divNearestEven_mul _ (Nat.two_pow_pos _), significand, if_neg (Nat.not_lt.mpr hnormal),
      scale]
    simp only [hiddenBit] at hparts hquotient ⊢
    omega
  · -- below the hidden bit the magnitude itself is the number of units
    rw [Nat.not_le] at hnormal
    have hscale : x.scale = 0 := by rw [scale, Nat.div_eq_of_lt hnormal]
    have hunits : x.units = x.magnitude := by
      rw [units, significand, if_pos hnormal, hscale]
      exact Nat.mul_one _
    have hlog : Nat.log2 x.magnitude - 52 = 0 := by
      by_cases hzero : x.magnitude = 0
      · rw [hzero]
        decide
      · have := (Nat.log2_lt hzero).mpr (show x.magnitude < 2 ^ 52 from hnormal)
        omega
    have hexact := divNearestEven_mul x.magnitude Nat.one_pos
    rw [Nat.mul_one] at hexact
    rw [hunits, hlog]
    show min (0 * hiddenBit + divNearestEven x.magnitude 1) infinityMagnitude = x.magnitude
    omega

/-- Rounding the value of a finite number gives the number. -/
theorem ofUnits_units (hfinite : x.isFinite = true) : ofUnits x.isNegative x.units 1 = x := by
  rw [ofUnits, nearestMagnitude_units hfinite, ofMagnitude_magnitude]

/-! ### Canonical numbers -/

/-- The number without what its text does not tell: the bits of a NaN and the sign of zero. -/
def canonical (x : Binary64) : Binary64 :=
  if x.isNaN then nan else if x.isZero then zero false else x

theorem canonical_eq_self (hnan : x.isNaN = false) (hzero : x.isZero = false) :
    x.canonical = x := by
  simp [canonical, hnan, hzero]

theorem isNaN_canonical (x : Binary64) : x.canonical.isNaN = x.isNaN := by
  unfold canonical
  split
  · next hnan => exact hnan.symm
  · split
    · next hnan _ => exact (Bool.eq_false_iff.mpr hnan).symm
    · rfl

theorem isZero_canonical (x : Binary64) : x.canonical.isZero = x.isZero := by
  unfold canonical
  split
  · next hnan =>
    have hlt : infinityMagnitude < x.magnitude := of_decide_eq_true hnan
    exact (decide_eq_false (Nat.ne_of_gt (Nat.zero_lt_of_lt hlt))).symm
  · split
    · next hzero => exact hzero.symm
    · rfl

/-- Two numbers are told apart unless both are NaN or both are zero. -/
theorem canonical_eq_canonical_iff : x.canonical = y.canonical ↔
    x = y ∨ x.isNaN = true ∧ y.isNaN = true ∨ x.isZero = true ∧ y.isZero = true := by
  constructor
  · intro heq
    have hnan : x.isNaN = y.isNaN := by rw [← isNaN_canonical, heq, isNaN_canonical]
    have hzero : x.isZero = y.isZero := by rw [← isZero_canonical, heq, isZero_canonical]
    cases hx : x.isNaN
    · cases hx' : x.isZero
      · left
        rwa [canonical_eq_self hx hx', canonical_eq_self (hnan ▸ hx) (hzero ▸ hx')] at heq
      · exact .inr (.inr ⟨rfl, hzero ▸ hx'⟩)
    · exact .inr (.inl ⟨rfl, hnan ▸ hx⟩)
  · rintro (rfl | ⟨hx, hy⟩ | ⟨hx, hy⟩)
    · rfl
    · rw [canonical, if_pos hx, canonical, if_pos hy]
    · have hnan {z : Binary64} (hz : z.isZero = true) : ¬ z.isNaN = true := by
        rw [isZero, decide_eq_true_eq] at hz
        rw [isNaN, hz]
        decide
      rw [canonical, if_neg (hnan hx), if_pos hx, canonical, if_neg (hnan hy), if_pos hy]

theorem unitsPerOne_pos : 0 < unitsPerOne := by decide +kernel

theorem isFinite_of_toInt? (h : x.toInt? = some n) : x.isFinite = true := by
  rw [toInt?, Option.ite_none_right_eq_some, Bool.and_eq_true] at h
  exact h.1.1

/-- The integer that a number is has its units and, unless it is zero, its sign. -/
theorem units_of_toInt? (h : x.toInt? = some n) :
    n.natAbs * unitsPerOne = x.units ∧ (n = 0 ∨ decide (n < 0) = x.isNegative) := by
  rw [toInt?, Option.ite_none_right_eq_some, Bool.and_eq_true, beq_iff_eq, Option.some_inj] at h
  obtain ⟨⟨-, hwhole⟩, hn⟩ := h
  rw [← Nat.div_mul_cancel (Nat.dvd_of_mod_eq_zero hwhole)]
  generalize x.units / unitsPerOne = quotient at hn
  cases hnegative : x.isNegative <;>
    simp only [hnegative, Bool.false_eq_true, if_true, if_false] at hn
  · refine ⟨by rw [← hn, Int.natAbs_natCast], .inr (decide_eq_false ?_)⟩
    omega
  · refine ⟨by rw [← hn, Int.natAbs_neg, Int.natAbs_natCast], ?_⟩
    rw [decide_eq_true_eq]
    omega

theorem units_eq_zero_iff (hfinite : x.isFinite = true) : x.units = 0 ↔ x.isZero = true := by
  rw [isZero, decide_eq_true_eq]
  constructor
  · intro hunits
    rw [← nearestMagnitude_units hfinite, hunits]
    decide
  · intro hmagnitude
    rw [units, significand, if_pos (by rw [hmagnitude]; decide), hmagnitude, Nat.zero_mul]

theorem isFinite_of_isZero (h : x.isZero = true) : x.isFinite = true := by
  rw [isZero, decide_eq_true_eq] at h
  rw [isFinite, h]
  decide

theorem isNaN_of_isFinite (h : x.isFinite = true) : x.isNaN = false := by
  rw [isNaN_eq_false_iff]
  exact Nat.le_of_lt (of_decide_eq_true h)

theorem toInt?_of_isZero (h : x.isZero = true) : x.toInt? = some 0 := by
  have hfinite := isFinite_of_isZero h
  rw [toInt?, hfinite, (units_eq_zero_iff hfinite).mpr h, Nat.zero_mod, Nat.zero_div]
  simp

/-- The integer that a number is stands for the number itself, zero for the positive one. -/
theorem ofInt_of_toInt? (h : x.toInt? = some n) : ofInt n = x.canonical := by
  have hfinite := isFinite_of_toInt? h
  obtain ⟨hunits, hsign⟩ := units_of_toInt? h
  have hnan := isNaN_of_isFinite hfinite
  rw [ofInt, ofUnits, hunits, nearestMagnitude_units hfinite]
  cases hzero : x.isZero with
  | false =>
    have hne : n ≠ 0 := by
      rintro rfl
      rw [Int.natAbs_zero, Nat.zero_mul] at hunits
      rw [(units_eq_zero_iff hfinite).mp hunits.symm] at hzero
      cases hzero
    rw [hsign.resolve_left hne, ofMagnitude_magnitude, canonical_eq_self hnan hzero]
  | true =>
    have hn : n = 0 := by
      rw [(units_eq_zero_iff hfinite).mpr hzero] at hunits
      have := (Nat.mul_eq_zero.mp hunits).resolve_right (Nat.ne_of_gt unitsPerOne_pos)
      omega
    rw [hn, of_decide_eq_true hzero, canonical, hnan, hzero]
    rfl

end Binary64

end MathCanvas
