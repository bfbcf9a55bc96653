/-!
# Blank characters

The characters with the Unicode property `White_Space`, and trimming by them.
-/

namespace MathCanvas

/-- Whether a character has the Unicode property `White_Space`. -/
def isUnicodeBlank (c : Char) : Bool :=
  let n := c.toNat
  (0x9 ≤ n && n ≤ 0xd) || n == 0x20 || n == 0x85 || n == 0xa0 || n == 0x1680
    || (0x2000 ≤ n && n ≤ 0x200a) || n == 0x2028 || n == 0x2029 || n == 0x202f || n == 0x205f
    || n == 0x3000

/-- Every blank of ASCII is a blank here. -/
theorem isUnicodeBlank_of_isWhitespace {c : Char} (h : c.isWhitespace = true) :
    isUnicodeBlank c = true := by
  simp only [Char.isWhitespace, Bool.or_eq_true, decide_eq_true_eq] at h
  rcases h with ((rfl | rfl) | rfl) | rfl <;> decide

/-- A text without the blanks at its two ends. -/
def trimBlanks (text : String) : String :=
  String.ofList ((text.toList.dropWhile isUnicodeBlank).reverse.dropWhile isUnicodeBlank).reverse

end MathCanvas
