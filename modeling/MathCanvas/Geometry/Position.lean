import MathCanvas.Number.Arithmetic
import MathCanvas.Number.Numeral
import MathCanvas.Order.Insertion

/-!
# Positions in the plane

The document is read like a page: `p < q` if `p` is in a higher row, or in the same row and
farther to the left. Coordinates compare by their keys, so the order is total: zeros are one
coordinate, NaN is one coordinate, beyond infinity. `Position.same` is equality in this order.

`Position.justBefore` is the place from which everything before a position is seen, and the
position itself is not.
-/

namespace MathCanvas

/-- A point; `x` grows to the right and `y` downwards. -/
structure Position where
  x : Binary64
  y : Binary64
  deriving DecidableEq, Inhabited

/-- An extent. -/
structure Size where
  width : Binary64
  height : Binary64
  deriving DecidableEq, Inhabited

namespace Position

def origin : Position := ⟨.zero false, .zero false⟩

instance : LT Position :=
  ⟨fun p q => p.y.key < q.y.key ∨ p.y.key = q.y.key ∧ p.x.key < q.x.key⟩

instance : LE Position :=
  ⟨fun p q => p.y.key < q.y.key ∨ p.y.key = q.y.key ∧ p.x.key ≤ q.x.key⟩

instance (p q : Position) : Decidable (p < q) :=
  inferInstanceAs (Decidable (p.y.key < q.y.key ∨ p.y.key = q.y.key ∧ p.x.key < q.x.key))

instance (p q : Position) : Decidable (p ≤ q) :=
  inferInstanceAs (Decidable (p.y.key < q.y.key ∨ p.y.key = q.y.key ∧ p.x.key ≤ q.x.key))

theorem lt_def {p q : Position} :
    p < q ↔ p.y.key < q.y.key ∨ p.y.key = q.y.key ∧ p.x.key < q.x.key := Iff.rfl

theorem le_def {p q : Position} :
    p ≤ q ↔ p.y.key < q.y.key ∨ p.y.key = q.y.key ∧ p.x.key ≤ q.x.key := Iff.rfl

/-- Whether two positions are the same place in the order. -/
def same (p q : Position) : Bool := p.y.key == q.y.key && p.x.key == q.x.key

theorem le_refl (p : Position) : p ≤ p := by simp [le_def]

theorem le_trans {p q r : Position} (hpq : p ≤ q) (hqr : q ≤ r) : p ≤ r := by
  simp only [le_def] at *; omega

theorem le_total (p q : Position) : p ≤ q ∨ q ≤ p := by
  simp only [le_def]; omega

theorem not_le {p q : Position} : ¬p ≤ q ↔ q < p := by
  simp only [le_def, lt_def]; omega

/-- How two positions stand in the order. -/
def order (p q : Position) : Ordering :=
  if p < q then .lt else if q < p then .gt else .eq

/-- The position with the greatest `x` to the left of `p` in its row. -/
def justBefore (p : Position) : Position := ⟨p.x.nextDown, p.y⟩

/-- The position moved right and down by an extent. -/
def offset (p : Position) (size : Size) : Position := ⟨p.x + size.width, p.y + size.height⟩

/-- The text `(x, y)`. -/
def text (p : Position) : String :=
  "(" ++ p.x.render .coordinate ++ ", " ++ p.y.render .coordinate ++ ")"

/-- Positions in order; those at one place keep their sequence. -/
def sort (positions : List Position) : List Position :=
  sortBy (fun p q => decide (p ≤ q)) positions

end Position

/-- Whether two extents have the same sides, compared by their keys. -/
def Size.same (a b : Size) : Bool := a.width.key == b.width.key && a.height.key == b.height.key

/-- A stretch of the reading order, open at the ends that are absent; the end is not part of it. -/
structure Span where
  start : Option Position
  stop : Option Position
  deriving DecidableEq, Inhabited

/-- Whether a position lies in a span. -/
def Span.contains (span : Span) (p : Position) : Bool :=
  span.start.all (fun start => decide (start ≤ p)) && span.stop.all (fun stop => decide (p < stop))

end MathCanvas
