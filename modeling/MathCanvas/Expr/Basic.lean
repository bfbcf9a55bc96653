import MathCanvas.Number.Binary64

/-!
# Expressions

A formula is a tree of numbers, symbols, string literals and applications of a named head to
arguments. The symbol `Missing`, and every application of it, is the *placeholder*: an argument
that has no value yet.

`Expr.valueEq` is equality of values, in which numbers are compared as numbers.
-/

namespace MathCanvas

/-- A formula. -/
inductive Expr where
  | number (value : Binary64)
  | symbol (name : String)
  | string (text : String)
  | app (head : String) (args : List Expr)
  deriving Inhabited

namespace Expr

/-- The name of the placeholder. -/
def missingName : String := "Missing"

/-- The placeholder as it is written into a result slot. -/
def missing : Expr := .symbol missingName

/-- Whether an expression is the placeholder, bare or applied. -/
def isMissing : Expr → Bool
  | .symbol name => name == missingName
  | .app head _ => head == missingName
  | _ => false

def symbol? : Expr → Option String
  | .symbol name => some name
  | _ => none

def number? : Expr → Option Binary64
  | .number value => some value
  | _ => none

def head? : Expr → Option String
  | .app head _ => some head
  | _ => none

def args : Expr → List Expr
  | .app _ args => args
  | _ => []

/-! ### Equality -/

mutual

/-- Whether two trees have the same form, names and texts, and numbers that `same` accepts. -/
def agree (same : Binary64 → Binary64 → Bool) : Expr → Expr → Bool
  | .number x, .number y => same x y
  | .symbol a, .symbol b => a == b
  | .string a, .string b => a == b
  | .app head args, .app head' args' => head == head' && agreeAll same args args'
  | _, _ => false

def agreeAll (same : Binary64 → Binary64 → Bool) : List Expr → List Expr → Bool
  | [], [] => true
  | a :: rest, b :: rest' => agree same a b && agreeAll same rest rest'
  | _, _ => false

end

mutual

theorem agree_beq_iff : (a b : Expr) → (agree (· == ·) a b = true ↔ a = b)
  | .app head args, .app head' args' => by
    rw [agree, Bool.and_eq_true, beq_iff_eq, agreeAll_beq_iff args args', app.injEq]
  | .number _, .number _ | .symbol _, .symbol _ | .string _, .string _ => by simp [agree]
  | .number _, .symbol _ | .number _, .string _ | .number _, .app _ _
  | .symbol _, .number _ | .symbol _, .string _ | .symbol _, .app _ _
  | .string _, .number _ | .string _, .symbol _ | .string _, .app _ _
  | .app _ _, .number _ | .app _ _, .symbol _ | .app _ _, .string _ => by simp [agree]

theorem agreeAll_beq_iff : (l m : List Expr) → (agreeAll (· == ·) l m = true ↔ l = m)
  | [], [] | [], _ :: _ | _ :: _, [] => by simp [agreeAll]
  | a :: rest, b :: rest' => by
    rw [agreeAll, Bool.and_eq_true, agree_beq_iff a b, agreeAll_beq_iff rest rest',
      List.cons.injEq]

end

instance : DecidableEq Expr := fun a b => decidable_of_decidable_of_iff (agree_beq_iff a b)

/-- Equality of values: the trees agree, and their numbers are equal as numbers. A NaN makes an
expression unequal to everything, itself included. -/
def valueEq : Expr → Expr → Bool := agree Binary64.valueEq

end Expr

end MathCanvas
