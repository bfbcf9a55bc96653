/-!
# Universally unique identifiers

An identifier is a number of 128 bits. It is written with 32 hexadecimal digits in groups of 8, 4,
4, 4 and 12 with hyphens between them. It may be read in this form, also in braces or behind
`urn:uuid:` in any case, and without any hyphens.
-/

namespace MathCanvas

structure Uuid where
  value : Nat
  deriving DecidableEq, Inhabited

namespace Uuid

def digitValue? (c : Char) : Option Nat :=
  if '0' ≤ c ∧ c ≤ '9' then some (c.toNat - '0'.toNat)
  else if 'a' ≤ c ∧ c ≤ 'f' then some (c.toNat - 'a'.toNat + 10)
  else if 'A' ≤ c ∧ c ≤ 'F' then some (c.toNat - 'A'.toNat + 10)
  else none

/-- The identifier that 32 digits spell. -/
def ofDigits? (digits : List Char) : Option Uuid :=
  if digits.length = 32 then
    (digits.foldlM (fun n c => (digitValue? c).map (16 * n + ·)) 0).map Uuid.mk
  else none

/-- The identifier in groups of digits with hyphens between them. -/
def ofGroups? (text : List Char) : Option Uuid :=
  let hyphenAt (i : Nat) : Bool := text[i]? == some '-'
  if text.length = 36 && hyphenAt 8 && hyphenAt 13 && hyphenAt 18 && hyphenAt 23 then
    ofDigits? (text.take 8 ++ (text.drop 9).take 4 ++ (text.drop 14).take 4
      ++ (text.drop 19).take 4 ++ text.drop 24)
  else none

/-- What may stand before the groups of an identifier, in lower case. -/
def label : List Char := ['u', 'r', 'n', ':', 'u', 'u', 'i', 'd', ':']

/-- Reads an identifier in any of its forms. -/
def parse? (text : String) : Option Uuid :=
  match text.toList with
  | '\x7b' :: rest =>
    if rest.getLast? = some '\x7d' then ofGroups? rest.dropLast else none
  | chars =>
    if chars.length = 32 then ofDigits? chars
    else if (chars.take label.length).map Char.toLower == label then
      ofGroups? (chars.drop label.length)
    else ofGroups? chars

/-- The text of an identifier, in lower case. -/
def text (id : Uuid) : String :=
  let digits := Nat.toDigits 16 id.value
  let all := List.replicate (32 - digits.length) '0' ++ digits
  let group (start size : Nat) : String := String.ofList ((all.drop start).take size)
  "-".intercalate [group 0 8, group 8 4, group 12 4, group 16 4, group 20 12]

end Uuid

end MathCanvas
