import MathCanvas.Number.Literal

/-!
# Numbers from a significand of 64 bits

A decimal can be read in a fixed amount of work: of its digits only those count that make up an
integer of 64 bits (`fitDigits`), and `Binary64.ofScaled?` takes this significand to the power of
ten by operations on binary64 numbers. The significand, the power of ten and their product or
quotient are rounded one by one, so that the result may be a neighbour of the nearest number.
-/

namespace MathCanvas

/-- Integers of 64 bits without sign are those below `2 ^ 64`. -/
abbrev unsignedLimit : Nat := 0x10000000000000000

/-- Integers of 64 bits with sign are those from `-2 ^ 63` on and below `2 ^ 63`. -/
abbrev signedLimit : Nat := 0x8000000000000000

/-- Appends decimal digits to an integer as long as it stays within 64 bits, and returns the digits
that are left. -/
def fitDigits (n : Nat) : List Char → Nat × List Char
  | [] => (n, [])
  | c :: rest =>
    if appendDigit n c < unsignedLimit then fitDigits (appendDigit n c) rest else (n, c :: rest)

/-- The significand and the exponent of a decimal without exponent part. Digits that do not fit
count as zeros. -/
def fitDecimal (whole fraction : List Char) : Nat × Int :=
  let (n, omitted) := fitDigits 0 whole
  let (significand, unread) := fitDigits n fraction
  (significand, (omitted.length : Int) - (fraction.length - unread.length : Nat))

theorem fitDigits_lt {n : Nat} (h : n < unsignedLimit) (digits : List Char) :
    (fitDigits n digits).1 < unsignedLimit := by
  induction digits generalizing n with
  | nil => exact h
  | cons c rest ih =>
    rw [fitDigits]
    split
    · exact ih ‹_›
    · exact h

theorem le_foldl_appendDigit (n : Nat) (digits : List Char) :
    n ≤ digits.foldl appendDigit n := by
  induction digits generalizing n with
  | nil => exact Nat.le_refl n
  | cons c rest ih => exact Nat.le_trans (by rw [appendDigit]; omega) (ih (appendDigit n c))

/-- Digits whose value fits are all read. -/
theorem fitDigits_eq_of_lt {n : Nat} {digits : List Char}
    (h : digits.foldl appendDigit n < unsignedLimit) :
    fitDigits n digits = (digits.foldl appendDigit n, []) := by
  induction digits generalizing n with
  | nil => rfl
  | cons c rest ih =>
    rw [fitDigits, if_pos (Nat.lt_of_le_of_lt (le_foldl_appendDigit _ rest) h)]
    exact ih h

namespace Binary64

/-- The exponent of the greatest power of ten that is a finite number. -/
def maxPowerOfTen : Nat := 308

/-- The number nearest to a power of ten. -/
def powerOfTen (exponent : Nat) : Binary64 := ofDecimal false 1 exponent

/-- `significand · 10 ^ exponent` by one multiplication or division of binary64 numbers, or by two
divisions if the power of ten is beyond the range of the format. `none` stands for a number that
is too great; one that is too small is zero. -/
def ofScaled? (significand : Nat) (exponent : Int) : Option Binary64 :=
  let x := ofInt significand
  if significand = 0 then some x
  else if 0 ≤ exponent then
    let y := x * powerOfTen exponent.toNat
    if exponent ≤ maxPowerOfTen ∧ y.isFinite then some y else none
  else
    let places := (-exponent).toNat
    if places ≤ maxPowerOfTen then some (x / powerOfTen places)
    else if places ≤ 2 * maxPowerOfTen then
      some (x / powerOfTen maxPowerOfTen / powerOfTen (places - maxPowerOfTen))
    else some (zero false)

/-- The number with the other sign. -/
def neg (x : Binary64) : Binary64 := ofMagnitude (!x.isNegative) x.magnitude

end Binary64

end MathCanvas
