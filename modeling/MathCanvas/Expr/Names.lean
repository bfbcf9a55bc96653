import MathCanvas.Expr.Form

/-!
# Names that an expression reads and writes

`Expr.readNames` are the names whose values an expression needs: result slots, directives and
targets of assignments are not read, and neither is the placeholder. `Expr.writtenNames` are the
names that the assignments on its chain define. Both lists are sorted and without repetition.
-/

namespace MathCanvas

/-- Puts a name into a sorted list without repetition. -/
def insertName (name : String) : List String → List String
  | [] => [name]
  | other :: rest =>
    if name < other then name :: other :: rest
    else if name == other then other :: rest
    else other :: insertName name rest

/-- The names of a list, sorted and each once. -/
def sortNames (names : List String) : List String :=
  names.foldl (fun sorted name => insertName name sorted) []

namespace Expr

mutual

/-- The names that an expression reads, in order of occurrence. -/
def reads : Expr → List String
  | .symbol name => if name == missingName then [] else [name]
  | .app head args =>
    if head == missingName then []
    else if head == "Assign" then readsOfSecond args
    else if head == "Equal" || head == "Evaluate" || head == "To" then readsOfFirst args
    else readsOfAll args
  | _ => []

def readsOfAll : List Expr → List String
  | [] => []
  | arg :: rest => reads arg ++ readsOfAll rest

def readsOfFirst : List Expr → List String
  | [] => []
  | arg :: _ => reads arg

def readsOfSecond : List Expr → List String
  | _ :: arg :: _ => reads arg
  | _ => []

end

/-- The names that an expression reads. -/
def readNames (e : Expr) : List String := sortNames e.reads

/-- The names that an expression defines when it is evaluated. -/
def writtenNames (e : Expr) : List String :=
  sortNames (e.chain.flatMap fun (_, form) =>
    match form with
    | .assign target _ => target.targets
    | .inline .. => [])

end Expr

end MathCanvas
