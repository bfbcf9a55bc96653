import MathCanvas.Geometry.Position

/-!
# Signs and magnitudes

A number is made of a sign and a magnitude (`Binary64.ofMagnitude_magnitude`), and `Binary64.key`
depends on these two alone. The number below another one has the key before it
(`Binary64.key_nextDown`), so that the place just before a position is the last one before it
(`Position.lt_iff_le_justBefore`); only NaN and negative infinity have no number below them.
-/

namespace MathCanvas

namespace Binary64

variable {x : Binary64} {negative : Bool} {m : Nat}

theorem magnitude_lt (x : Binary64) : x.magnitude < signBit := Nat.mod_lt _ (by decide)

theorem toNat_bits_lt (x : Binary64) : x.bits.toNat < 2 * signBit := by
  have hlt := x.bits.toNat_lt
  simp only [signBit]
  omega

theorem toNat_bits_ofMagnitude (negative : Bool) (hm : m < signBit) :
    (ofMagnitude negative m).bits.toNat = if negative then signBit + m else m := by
  rw [ofMagnitude, UInt64.toNat_ofNat']
  apply Nat.mod_eq_of_lt
  simp only [signBit] at hm ⊢
  split <;> omega

@[simp] theorem magnitude_ofMagnitude (negative : Bool) (hm : m < signBit) :
    (ofMagnitude negative m).magnitude = m := by
  rw [magnitude, toNat_bits_ofMagnitude negative hm]
  split
  · rw [Nat.add_mod_left, Nat.mod_eq_of_lt hm]
  · exact Nat.mod_eq_of_lt hm

@[simp] theorem isNegative_ofMagnitude (negative : Bool) (hm : m < signBit) :
    (ofMagnitude negative m).isNegative = negative := by
  rw [isNegative, toNat_bits_ofMagnitude negative hm]
  cases negative
  · simpa using hm
  · simp

/-- A number is known by its sign and its magnitude. -/
theorem ofMagnitude_magnitude (x : Binary64) : ofMagnitude x.isNegative x.magnitude = x := by
  obtain ⟨bits⟩ := x
  have hlt := toNat_bits_lt ⟨bits⟩
  have hbits : (ofMagnitude (isNegative ⟨bits⟩) (magnitude ⟨bits⟩)).bits.toNat = bits.toNat := by
    rw [toNat_bits_ofMagnitude _ (magnitude_lt _), isNegative, magnitude]
    simp only [decide_eq_true_eq, signBit] at hlt ⊢
    split <;> omega
  exact congrArg Binary64.mk (UInt64.toNat_inj.mp hbits)

/-- Numbers with the same sign and magnitude are the same. -/
theorem eq_of_magnitude {y : Binary64} (hsign : x.isNegative = y.isNegative)
    (hmagnitude : x.magnitude = y.magnitude) : x = y := by
  rw [← ofMagnitude_magnitude x, ← ofMagnitude_magnitude y, hsign, hmagnitude]

theorem isNaN_eq_false_iff : x.isNaN = false ↔ x.magnitude ≤ infinityMagnitude := by
  simp [isNaN]

theorem eq_infinity_iff : x = infinity negative ↔ x.isInfinite = true ∧ x.isNegative = negative := by
  have hlt : infinityMagnitude < signBit := by decide
  constructor
  · rintro rfl
    rw [isInfinite, infinity, magnitude_ofMagnitude _ hlt, isNegative_ofMagnitude _ hlt]
    exact ⟨decide_eq_true rfl, rfl⟩
  · rintro ⟨hinfinite, hsign⟩
    rw [isInfinite, decide_eq_true_eq] at hinfinite
    apply eq_of_magnitude
    · rw [hsign, infinity, isNegative_ofMagnitude _ hlt]
    · rw [hinfinite, infinity, magnitude_ofMagnitude _ hlt]

/-! ### The key -/

theorem key_of_not_nan (h : x.isNaN = false) :
    x.key = if x.isNegative then -(x.magnitude : Int) else x.magnitude := by
  rw [key, h, if_neg Bool.false_ne_true]

/-- Only the key of a NaN is beyond all magnitudes. -/
theorem isNaN_iff_key_eq : x.isNaN = true ↔ x.key = signBit := by
  have hlt := magnitude_lt x
  unfold key
  simp only [signBit] at hlt ⊢
  split
  · simpa
  · split <;> simp [*] <;> omega

theorem key_ofMagnitude (negative : Bool) (hm : m ≤ infinityMagnitude) :
    (ofMagnitude negative m).key = if negative then -(m : Int) else m := by
  have hlt : m < signBit := Nat.lt_of_le_of_lt hm (by decide)
  rw [key_of_not_nan, isNegative_ofMagnitude _ hlt, magnitude_ofMagnitude _ hlt]
  rwa [isNaN_eq_false_iff, magnitude_ofMagnitude _ hlt]

/-- NaN and negative infinity have no number below them, and every other number has the one with
the key before its own. -/
theorem key_nextDown (x : Binary64) : x.nextDown.key =
    if x.isNaN = false ∧ x ≠ infinity true then x.key - 1 else x.key := by
  by_cases hnan : x.isNaN = true
  · rw [nextDown, if_pos hnan, if_neg (by simp [hnan])]
  rw [Bool.not_eq_true] at hnan
  have hle := isNaN_eq_false_iff.mp hnan
  have hkey := key_of_not_nan hnan
  rw [nextDown, if_neg (by simp [hnan])]
  by_cases hzero : x.isZero = true
  · -- below either zero there is the least negative number
    have hmagnitude : x.magnitude = 0 := by simpa [isZero] using hzero
    have hne : x ≠ infinity true := by
      intro heq
      have hinfinite := (eq_infinity_iff.mp heq).1
      rw [isInfinite, hmagnitude] at hinfinite
      revert hinfinite
      decide
    rw [if_pos hzero, if_pos ⟨hnan, hne⟩, key_ofMagnitude true (by decide), hkey, hmagnitude]
    simp
  have hpositive : 0 < x.magnitude := by
    rw [isZero, decide_eq_true_eq] at hzero
    omega
  rw [if_neg hzero]
  by_cases hsign : x.isNegative = true
  · rw [if_pos hsign]
    by_cases hinfinite : x.isInfinite = true
    · have heq : x = infinity true := eq_infinity_iff.mpr ⟨hinfinite, hsign⟩
      rw [if_pos hinfinite, if_neg fun h => h.2 heq]
    · have hne : x ≠ infinity true := fun heq => hinfinite (eq_infinity_iff.mp heq).1
      have hlt : x.magnitude + 1 ≤ infinityMagnitude := by
        rw [isInfinite, decide_eq_true_eq] at hinfinite
        omega
      rw [if_neg hinfinite, if_pos ⟨hnan, hne⟩, key_ofMagnitude true hlt, hkey, if_pos hsign]
      simp only [if_true]
      omega
  · have hne : x ≠ infinity true := fun heq => hsign (eq_infinity_iff.mp heq).2
    rw [if_neg hsign, if_pos ⟨hnan, hne⟩, key_ofMagnitude false (by omega), hkey, if_neg hsign]
    simp only [Bool.false_eq_true, if_false]
    omega

end Binary64

namespace Position

variable {p q : Position}

/-- There is a place just before the position: its `x` is neither NaN nor negative infinity. -/
def Interior (p : Position) : Prop := p.x.isNaN = false ∧ p.x ≠ .infinity true

instance (p : Position) : Decidable p.Interior := inferInstanceAs (Decidable (_ ∧ _))

/-- Nothing lies between a position and the place just before it. -/
theorem lt_iff_le_justBefore (h : p.Interior) : q < p ↔ q ≤ p.justBefore := by
  have hkey : p.justBefore.x.key = p.x.key - 1 := (Binary64.key_nextDown p.x).trans (if_pos h)
  rw [lt_def, le_def, hkey]
  show _ ↔ q.y.key < p.y.key ∨ q.y.key = p.y.key ∧ q.x.key ≤ p.x.key - 1
  omega

theorem justBefore_lt (h : p.Interior) : p.justBefore < p :=
  (lt_iff_le_justBefore h).mpr (le_refl _)

/-- At the edge of the row the place just before a position is the position itself. -/
theorem justBefore_lt_iff : p.justBefore < p ↔ p.Interior := by
  refine ⟨fun hlt => Decidable.byContradiction fun hedge => ?_, justBefore_lt⟩
  have hkey : p.justBefore.x.key = p.x.key := (Binary64.key_nextDown p.x).trans (if_neg hedge)
  have hrow : p.justBefore.y.key = p.y.key := rfl
  rw [lt_def] at hlt
  omega

end Position

end MathCanvas
