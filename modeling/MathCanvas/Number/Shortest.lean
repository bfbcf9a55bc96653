import MathCanvas.Number.Binary64

/-!
# Shortest decimal digits

The fewest digits that read back as a given number. A number stands for all reals that round to
it: the reals between the midpoints to its neighbours, ends included exactly if the significand
is even. For one, two, three, … digits the two neighbours of the number on that decimal grid are
tried; the first grid with a neighbour in the interval gives the digits. If both neighbours are in
the interval the nearer one is taken, and `Tie` says where an exact half goes.
-/

namespace MathCanvas

/-- Where the digits go if two decimals are equally short and equally near. -/
inductive Tie where
  /-- To the one whose last digit is even. -/
  | toEven
  /-- To the one farther from zero. -/
  | away
  deriving DecidableEq, Inhabited

/-- The decimal `digits · 10 ^ exponent`. -/
structure Decimal where
  digits : Nat
  exponent : Int
  deriving DecidableEq, Inhabited

namespace Decimal

/-- The same decimal without trailing zeros among its digits; at most `fuel` of them are removed. -/
def trim (fuel : Nat) (d : Decimal) : Decimal :=
  match fuel with
  | 0 => d
  | fuel + 1 => if d.digits % 10 = 0 then trim fuel ⟨d.digits / 10, d.exponent + 1⟩ else d

end Decimal

namespace Binary64

/-- The number of decimal digits of `n`; zero has one. -/
def digitCount (n : Nat) : Nat := (Nat.toDigits 10 n).length

/-- The exponent of the leading decimal digit of a positive finite number. -/
def leadingExponent (x : Binary64) : Int :=
  (digitCount (x.units * Nat.pow 10 400 / unitsPerOne) : Int) - 401

/-- The decimal of the grid `10 ^ exponent` that reads back as `x`, if the grid has one: the
nearer of the two grid neighbours in the interval of reals that round to `x`. -/
def onGrid? (tie : Tie) (x : Binary64) (exponent : Int) : Option Decimal :=
  let m := x.significand
  let gridStep := Nat.pow 10 exponent.toNat * (4 * unitsPerOne)
  let valueStep := Nat.pow 2 x.scale * Nat.pow 10 (-exponent).toNat
  let value := 4 * m * valueStep
  let low := (if m = hiddenBit ∧ 0 < x.scale then 4 * m - 1 else 4 * m - 2) * valueStep
  let high := (4 * m + 2) * valueStep
  let inside (point : Nat) : Bool :=
    if m % 2 = 0 then decide (low ≤ point ∧ point ≤ high) else decide (low < point ∧ point < high)
  let below := value / gridStep
  let above := below + 1
  match inside (below * gridStep), inside (above * gridStep) with
  | true, true =>
    let toBelow := value - below * gridStep
    let toAbove := above * gridStep - value
    if toBelow < toAbove then some ⟨below, exponent⟩
    else if toAbove < toBelow then some ⟨above, exponent⟩
    else match tie with
      | .toEven => some ⟨if below % 2 = 0 then below else above, exponent⟩
      | .away => some ⟨above, exponent⟩
  | true, false => some ⟨below, exponent⟩
  | false, true => some ⟨above, exponent⟩
  | false, false => none

/-- The fewest digits that read back as the positive finite number `x`. Seventeen are always
enough. -/
def shortest (tie : Tie) (x : Binary64) : Decimal :=
  let leading := x.leadingExponent
  let tried := (List.range 17).findSome? fun (n : Nat) => x.onGrid? tie (leading - n)
  (tried.getD ⟨x.units, -1074⟩).trim 20

end Binary64

end MathCanvas
