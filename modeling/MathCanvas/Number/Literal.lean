import MathCanvas.Number.Arithmetic

/-!
# Number literals

The grammar of number literals in text: an optional sign, then digits with an optional point and
an optional exponent, or one of the words `inf`, `infinity` and `nan` in any case. The digits may
stand on one side of the point only. There are no blanks and no separators between digits.
-/

namespace MathCanvas

/-- The integer with one more decimal digit. -/
def appendDigit (n : Nat) (c : Char) : Nat := 10 * n + (c.toNat - '0'.toNat)

/-- The value of a text of decimal digits. -/
def digitsValue (digits : List Char) : Nat := digits.foldl appendDigit 0

/-- The exponent that a text of digits with an optional sign spells. -/
def exponentValue? (text : List Char) : Option Int :=
  let signed : Bool × List Char := match text with
    | '-' :: rest => (true, rest)
    | '+' :: rest => (false, rest)
    | rest => (false, rest)
  if signed.2.isEmpty || !signed.2.all Char.isDigit then none
  else
    let n : Int := digitsValue signed.2
    some (if signed.1 then -n else n)

/-- The number that an unsigned decimal literal spells. -/
def decimalLiteral? (negative : Bool) (text : List Char) : Option Binary64 :=
  let whole := text.takeWhile Char.isDigit
  let afterWhole := text.dropWhile Char.isDigit
  let (fraction, afterFraction) := match afterWhole with
    | '.' :: rest => (rest.takeWhile Char.isDigit, rest.dropWhile Char.isDigit)
    | rest => ([], rest)
  if whole.isEmpty && fraction.isEmpty then none
  else
    let exponent : Option Int := match afterFraction with
      | [] => some 0
      | c :: rest => if c == 'e' || c == 'E' then exponentValue? rest else none
    exponent.map fun e =>
      Binary64.ofDecimal negative (digitsValue (whole ++ fraction)) (e - fraction.length)

/-- The number that a literal spells, or `none` for a text outside the grammar. -/
def Binary64.ofLiteral? (text : String) : Option Binary64 :=
  let signed : Bool × List Char := match text.toList with
    | '-' :: rest => (true, rest)
    | '+' :: rest => (false, rest)
    | rest => (false, rest)
  let word := String.ofList (signed.2.map Char.toLower)
  if word == "nan" then some Binary64.nan
  else if word == "inf" || word == "infinity" then some (Binary64.infinity signed.1)
  else decimalLiteral? signed.1 signed.2

end MathCanvas
