import MathCanvas.Number.Shortest

/-!
# Numerals

The text of a number. All texts of this library print the shortest digits that read back
(`MathCanvas.Number.Shortest`); a `NumeralStyle` holds what is left to decide. There are two
styles: `NumeralStyle.json` for numbers in JSON texts and `NumeralStyle.coordinate` for the
coordinates of a position.
-/

namespace MathCanvas

/-- How the digits of a number are laid out. -/
structure NumeralStyle where
  /-- Whether a number whose leading digit has the given decimal exponent is written positionally,
  without an exponent. -/
  positional : Int → Bool
  /-- Whether a positional number without fraction ends in `.0`. -/
  pointZero : Bool
  tie : Tie
  nan : String
  infinity : Bool → String

namespace NumeralStyle

/-- Numbers in JSON: positional from `1e-5` up to, but not including, `1e16`, always with a digit
after the point; a number that JSON cannot write is `null`. -/
def json : NumeralStyle where
  positional e := decide (-5 ≤ e ∧ e < 16)
  pointZero := true
  tie := .toEven
  nan := "null"
  infinity _ := "null"

/-- Coordinates: always positional, without a point where none is needed. -/
def coordinate : NumeralStyle where
  positional _ := true
  pointZero := false
  tie := .away
  nan := "NaN"
  infinity negative := if negative then "-inf" else "inf"

end NumeralStyle

/-- A text of `n` zeros. -/
def zeros (n : Nat) : String := String.ofList (List.replicate n '0')

/-- The text of a positive decimal: `d.ddde±x` or positional, as the style says. -/
def Decimal.render (style : NumeralStyle) (d : Decimal) : String :=
  let digits := Nat.toDigits 10 d.digits
  let leading := d.exponent + (digits.length : Int) - 1
  if style.positional leading then
    if 0 ≤ d.exponent then
      String.ofList digits ++ zeros d.exponent.toNat ++ (if style.pointZero then ".0" else "")
    else if 0 ≤ leading then
      let whole := leading.toNat + 1
      String.ofList (digits.take whole) ++ "." ++ String.ofList (digits.drop whole)
    else
      "0." ++ zeros (-leading - 1).toNat ++ String.ofList digits
  else
    let fraction := match digits.drop 1 with
      | [] => ""
      | rest => "." ++ String.ofList rest
    let sign := if leading < 0 then "-" else "+"
    String.ofList (digits.take 1) ++ fraction ++ "e" ++ sign
      ++ String.ofList (Nat.toDigits 10 leading.natAbs)

/-- The text of a number in the given style. The sign of a zero is kept. -/
def Binary64.render (style : NumeralStyle) (x : Binary64) : String :=
  if x.isNaN then style.nan
  else if x.isInfinite then style.infinity x.isNegative
  else
    (if x.isNegative then "-" else "") ++
      if x.isZero then (if style.pointZero then "0.0" else "0")
      else (x.shortest style.tie).render style

end MathCanvas
