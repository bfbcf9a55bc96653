/-!
# IEEE 754 binary64 numbers

A number is its 64-bit pattern. The pattern without its sign bit, the *magnitude*, grows with the
absolute value, which gives the two comparisons of this library:

* `Binary64.key` is an order-preserving integer in which both zeros are `0` and every NaN is the
  greatest key, so that comparing keys is a total order;
* `Binary64.valueEq` is equality of numbers: the zeros agree and a NaN agrees with nothing.

Every finite number is a whole number of *units* of `2 ^ -1074`, the least positive number
(`Binary64.units`). Arithmetic is therefore exact arithmetic of integers followed by one rounding,
which `MathCanvas.Number.Arithmetic` holds.
-/

namespace MathCanvas

/-- A binary64 number, given by its bit pattern: sign, eleven exponent bits, 52 fraction bits. -/
structure Binary64 where
  bits : UInt64
  deriving DecidableEq, Inhabited

namespace Binary64

/-! ### Bit patterns -/

/-- The weight of the sign bit in a pattern, `2 ^ 63`. -/
abbrev signBit : Nat := 0x8000000000000000

/-- The weight of the bit that a normal significand has before its fraction, `2 ^ 52`. -/
abbrev hiddenBit : Nat := 0x10000000000000

/-- The magnitude of an infinity: all exponent bits set, no fraction bit. -/
def infinityMagnitude : Nat := 0x7ff0000000000000

/-- The bit pattern without the sign bit. -/
def magnitude (x : Binary64) : Nat := x.bits.toNat % signBit

/-- Whether the sign bit is set; `-0.0` is negative. -/
def isNegative (x : Binary64) : Bool := decide (signBit ≤ x.bits.toNat)

/-- The number with a given sign bit and magnitude. -/
def ofMagnitude (negative : Bool) (magnitude : Nat) : Binary64 :=
  ⟨UInt64.ofNat (if negative then signBit + magnitude else magnitude)⟩

def isNaN (x : Binary64) : Bool := decide (infinityMagnitude < x.magnitude)

def isInfinite (x : Binary64) : Bool := decide (x.magnitude = infinityMagnitude)

def isFinite (x : Binary64) : Bool := decide (x.magnitude < infinityMagnitude)

/-- Whether the number is one of the two zeros. -/
def isZero (x : Binary64) : Bool := decide (x.magnitude = 0)

/-- The quiet NaN without payload. -/
def nan : Binary64 := ⟨0x7ff8000000000000⟩

def infinity (negative : Bool) : Binary64 := ofMagnitude negative infinityMagnitude

def zero (negative : Bool) : Binary64 := ofMagnitude negative 0

/-! ### Comparisons -/

/-- The place of a number in the total order: the signed magnitude, and the greatest key for every
NaN. -/
def key (x : Binary64) : Int :=
  if x.isNaN then 0x8000000000000000
  else if x.isNegative then -(x.magnitude : Int)
  else x.magnitude

/-- Equality of numbers: a NaN equals nothing, and the two zeros are equal. -/
def valueEq (x y : Binary64) : Bool := !x.isNaN && !y.isNaN && decide (x.key = y.key)

/-- The greatest number below `x`; infinity below and NaN stay. The step below either zero is the
least negative number. -/
def nextDown (x : Binary64) : Binary64 :=
  if x.isNaN then x
  else if x.isZero then ofMagnitude true 1
  else if x.isNegative then
    if x.isInfinite then x else ofMagnitude true (x.magnitude + 1)
  else ofMagnitude false (x.magnitude - 1)

/-! ### Exact values -/

/-- The number of units of `2 ^ -1074` in one. -/
def unitsPerOne : Nat := Nat.pow 2 1074

/-- The integer significand: the fraction, with the hidden bit for a normal number. -/
def significand (x : Binary64) : Nat :=
  if x.magnitude < hiddenBit then x.magnitude else hiddenBit + x.magnitude % hiddenBit

/-- The exponent of the significand, counted from the least one, `-1074`. -/
def scale (x : Binary64) : Nat := x.magnitude / hiddenBit - 1

/-- The absolute value of a finite number, in units of `2 ^ -1074`. -/
def units (x : Binary64) : Nat := x.significand * Nat.pow 2 x.scale

/-- The value of a finite number, in units of `2 ^ -1074`. -/
def signedUnits (x : Binary64) : Int := if x.isNegative then -(x.units : Int) else x.units

/-- The integer that a finite number without fraction is. -/
def toInt? (x : Binary64) : Option Int :=
  if x.isFinite && x.units % unitsPerOne == 0 then
    some (if x.isNegative then -((x.units / unitsPerOne : Nat) : Int)
      else ((x.units / unitsPerOne : Nat) : Int))
  else none

end Binary64

end MathCanvas
