import MathCanvas.Json.Basic
import MathCanvas.Number.Scaled

/-!
# Reading JSON

Reading has two steps. `JsonSource.read?` checks the grammar of RFC 8259 and keeps what is written:
number lexemes, fields in order, and strings, or their absence where an escape is a lone
surrogate. `JsonSource.toJson?` then takes the values: it refuses lone surrogates, numbers beyond
the range of binary64, and arrays and objects that nest too deep. A record reader
(`JsonSource.record?`) takes only the values of the fields it knows, so that what stands in other
fields has to keep to the grammar only.
-/

namespace MathCanvas

/-- A number as written. -/
structure NumberLexeme where
  negative : Bool
  whole : List Char
  fraction : Option (List Char)
  exponent : Option Int
  deriving DecidableEq, Inhabited

namespace NumberLexeme

/-- The value of a lexeme: an integer if it has neither point nor exponent and fits 64 bits,
unless it is `-0`; else the binary64 number that its significand of 64 bits is scaled to, if that
is finite. -/
def value? (lexeme : NumberLexeme) : Option JsonNumber :=
  let n := digitsValue lexeme.whole
  let isInteger : Bool := lexeme.fraction.isNone && lexeme.exponent.isNone
  if isInteger && !lexeme.negative && decide (n < unsignedLimit) then some (.int n)
  else if isInteger && lexeme.negative && decide (0 < n ∧ n ≤ signedLimit) then
    some (.int (-n))
  else
    let (significand, exponent) := fitDecimal lexeme.whole (lexeme.fraction.getD [])
    (Binary64.ofScaled? significand (exponent + lexeme.exponent.getD 0)).map fun x =>
      .float (if lexeme.negative then x.neg else x)

end NumberLexeme

/-- A JSON text by its grammar. A string is `none` if it has an escape that is a lone surrogate. -/
inductive JsonSource where
  | null
  | bool (value : Bool)
  | num (lexeme : NumberLexeme)
  | str (text : Option String)
  | arr (items : List JsonSource)
  | obj (fields : List (Option String × JsonSource))
  deriving Inhabited

namespace JsonSource

/-! ### Strings -/

/-- A piece of a string: a character, or the 16-bit unit that an escape gives in hexadecimal. -/
inductive Piece where
  | char (c : Char)
  | unit (value : Nat)
  deriving DecidableEq, Inhabited

def hexValue? (c : Char) : Option Nat :=
  if '0' ≤ c ∧ c ≤ '9' then some (c.toNat - '0'.toNat)
  else if 'a' ≤ c ∧ c ≤ 'f' then some (c.toNat - 'a'.toNat + 10)
  else if 'A' ≤ c ∧ c ≤ 'F' then some (c.toNat - 'A'.toNat + 10)
  else none

def hexUnit? (a b c d : Char) : Option Nat := do
  return ((← hexValue? a) * 16 + (← hexValue? b)) * 256 + (← hexValue? c) * 16 + (← hexValue? d)

/-- The character that a one-letter escape stands for. -/
def escaped? (c : Char) : Option Char :=
  match c with
  | '"' => some '"'
  | '\\' => some '\\'
  | '/' => some '/'
  | 'b' => some '\x08'
  | 'f' => some '\x0c'
  | 'n' => some '\n'
  | 'r' => some '\r'
  | 't' => some '\t'
  | _ => none

/-- The pieces of a string whose opening quote is read, and what follows its closing quote. -/
def pieces? (seen : List Piece) : List Char → Option (List Piece × List Char)
  | [] => none
  | '"' :: rest => some (seen.reverse, rest)
  | '\\' :: 'u' :: a :: b :: c :: d :: rest =>
    match hexUnit? a b c d with
    | some value => pieces? (.unit value :: seen) rest
    | none => none
  | '\\' :: c :: rest =>
    match escaped? c with
    | some c => pieces? (.char c :: seen) rest
    | none => none
  | c :: rest => if c.toNat < 0x20 then none else pieces? (.char c :: seen) rest

/-- The characters of a string's pieces; two surrogates in a row make one character, and a lone
one makes none. -/
def decodePieces? (seen : List Char) : List Piece → Option (List Char)
  | [] => some seen.reverse
  | .char c :: rest => decodePieces? (c :: seen) rest
  | [.unit high] =>
    if 0xd800 ≤ high ∧ high < 0xe000 then none else some (Char.ofNat high :: seen).reverse
  | .unit high :: next :: rest =>
    if 0xd800 ≤ high ∧ high < 0xdc00 then
      match next with
      | .unit low =>
        if 0xdc00 ≤ low ∧ low < 0xe000 then
          decodePieces?
            (Char.ofNat (0x10000 + (high - 0xd800) * 0x400 + (low - 0xdc00)) :: seen) rest
        else none
      | .char _ => none
    else if 0xdc00 ≤ high ∧ high < 0xe000 then none
    else decodePieces? (Char.ofNat high :: seen) (next :: rest)

/-- A string whose opening quote is read. -/
def string? (text : List Char) : Option (Option String × List Char) :=
  (pieces? [] text).map fun (pieces, rest) =>
    ((decodePieces? [] pieces).map String.ofList, rest)

/-! ### Numbers -/

/-- The digits of a whole part: `0`, or digits that do not start with it. -/
def whole? : List Char → Option (List Char × List Char)
  | '0' :: rest => some (['0'], rest)
  | text =>
    let digits := text.takeWhile Char.isDigit
    if digits.isEmpty then none else some (digits, text.dropWhile Char.isDigit)

/-- At least one digit. -/
def digits? (text : List Char) : Option (List Char × List Char) :=
  let digits := text.takeWhile Char.isDigit
  if digits.isEmpty then none else some (digits, text.dropWhile Char.isDigit)

def fraction? : List Char → Option (Option (List Char) × List Char)
  | '.' :: rest => (digits? rest).map fun (digits, rest) => (some digits, rest)
  | text => some (none, text)

def exponentDigits? (negative : Bool) (text : List Char) : Option (Option Int × List Char) :=
  (digits? text).map fun (digits, rest) =>
    let n : Int := digitsValue digits
    (some (if negative then -n else n), rest)

def exponent? : List Char → Option (Option Int × List Char)
  | [] => some (none, [])
  | c :: rest =>
    if c == 'e' || c == 'E' then
      match rest with
      | '+' :: rest => exponentDigits? false rest
      | '-' :: rest => exponentDigits? true rest
      | rest => exponentDigits? false rest
    else some (none, c :: rest)

def number? (text : List Char) : Option (NumberLexeme × List Char) := do
  let (negative, text) := match text with
    | '-' :: rest => (true, rest)
    | rest => (false, rest)
  let (whole, text) ← whole? text
  let (fraction, text) ← fraction? text
  let (exponent, text) ← exponent? text
  return (⟨negative, whole, fraction, exponent⟩, text)

/-! ### Values -/

/-- Blanks between tokens: space, tab, line feed, carriage return. -/
def isBlank (c : Char) : Bool := c == ' ' || c == '\t' || c == '\n' || c == '\r'

def skipBlanks (text : List Char) : List Char := text.dropWhile isBlank

mutual

/-- A value at the start of a text, and what follows it. -/
def value? : Nat → List Char → Option (JsonSource × List Char)
  | 0, _ => none
  | fuel + 1, text =>
    match skipBlanks text with
    | 'n' :: 'u' :: 'l' :: 'l' :: rest => some (.null, rest)
    | 't' :: 'r' :: 'u' :: 'e' :: rest => some (.bool true, rest)
    | 'f' :: 'a' :: 'l' :: 's' :: 'e' :: rest => some (.bool false, rest)
    | '"' :: rest => (string? rest).map fun (text, rest) => (.str text, rest)
    | '[' :: rest =>
      match skipBlanks rest with
      | ']' :: rest => some (.arr [], rest)
      | rest => (items? fuel [] rest).map fun (items, rest) => (.arr items, rest)
    | '\x7b' :: rest =>
      match skipBlanks rest with
      | '\x7d' :: rest => some (.obj [], rest)
      | rest => (fields? fuel [] rest).map fun (fields, rest) => (.obj fields, rest)
    | rest => (number? rest).map fun (lexeme, rest) => (.num lexeme, rest)

/-- The items of an array, of which there is at least one more. -/
def items? : Nat → List JsonSource → List Char → Option (List JsonSource × List Char)
  | 0, _, _ => none
  | fuel + 1, seen, text =>
    match value? fuel text with
    | none => none
    | some (item, rest) =>
      match skipBlanks rest with
      | ',' :: rest => items? fuel (item :: seen) rest
      | ']' :: rest => some ((item :: seen).reverse, rest)
      | _ => none

/-- The fields of an object, of which there is at least one more. -/
def fields? : Nat → List (Option String × JsonSource) → List Char →
    Option (List (Option String × JsonSource) × List Char)
  | 0, _, _ => none
  | fuel + 1, seen, text =>
    match skipBlanks text with
    | '"' :: rest =>
      match string? rest with
      | none => none
      | some (name, rest) =>
        match skipBlanks rest with
        | ':' :: rest =>
          match value? fuel rest with
          | none => none
          | some (value, rest) =>
            match skipBlanks rest with
            | ',' :: rest => fields? fuel ((name, value) :: seen) rest
            | '\x7d' :: rest => some (((name, value) :: seen).reverse, rest)
            | _ => none
        | _ => none
    | _ => none

end

/-- Reads a whole text: one value with nothing but blanks around it. Each nested call has read a
character more than the one before it, so the length of the text is fuel enough. -/
def read? (text : String) : Option JsonSource :=
  let chars := text.toList
  match value? (chars.length + 1) chars with
  | some (value, rest) => if (skipBlanks rest).isEmpty then some value else none
  | none => none

/-! ### Taking values -/

/-- The levels of arrays and objects that a text may nest. -/
def depthLimit : Nat := 127

mutual

/-- The value of a source, in which arrays and objects may nest `depth` levels. -/
def toJson? (depth : Nat) : JsonSource → Option Json
  | .null => some .null
  | .bool value => some (.bool value)
  | .num lexeme => lexeme.value?.map .num
  | .str text => text.map .str
  | .arr items => if depth = 0 then none else (itemsToJson? (depth - 1) items).map .arr
  | .obj fields => if depth = 0 then none else (fieldsToJson? (depth - 1) fields).map .obj

def itemsToJson? (depth : Nat) : List JsonSource → Option (List Json)
  | [] => some []
  | item :: rest =>
    match toJson? depth item, itemsToJson? depth rest with
    | some value, some values => some (value :: values)
    | _, _ => none

def fieldsToJson? (depth : Nat) :
    List (Option String × JsonSource) → Option (List (String × Json))
  | [] => some []
  | (name, source) :: rest =>
    match name, toJson? depth source, fieldsToJson? depth rest with
    | some name, some value, some values => some ((name, value) :: values)
    | _, _, _ => none

end

/-! ### Records -/

/-- Puts a field of an object into its place among the known names; fails if the place is taken.
A name that is not known changes nothing. -/
def place? (name : String) (value : JsonSource) :
    List String → List (Option JsonSource) → Option (List (Option JsonSource))
  | known :: names, taken :: rest =>
    if known == name then
      match taken with
      | none => some (some value :: rest)
      | some _ => none
    else (place? name value names rest).map (taken :: ·)
  | _, places => some places

/-- The fields of a record, in the order of `names`. A record is an object in which no known name
is repeated, or an array of at most as many values in the order of the names. -/
def record? (names : List String) : JsonSource → Option (List (Option JsonSource))
  | .arr items =>
    if names.length < items.length then none
    else some (items.map some ++ List.replicate (names.length - items.length) none)
  | .obj fields =>
    fields.foldlM (fun places field => field.1.bind fun name => place? name field.2 names places)
      (List.replicate names.length none)
  | _ => none

/-- The number that a source is. -/
def toBinary64? : JsonSource → Option Binary64
  | .num lexeme => lexeme.value?.map JsonNumber.toBinary64
  | _ => none

/-- The string that a source is. -/
def toString? : JsonSource → Option String
  | .str text => text
  | _ => none

end JsonSource

/-- Reads a JSON text. -/
def Json.parse? (text : String) : Option Json :=
  (JsonSource.read? text).bind (JsonSource.toJson? JsonSource.depthLimit)

end MathCanvas
