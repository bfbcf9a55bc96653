import MathCanvas.Geometry.Position
import MathCanvas.Json.Printer
import MathCanvas.Json.Source

/-!
# Positions and extents in JSON

Both are records of two numbers, `x` and `y`, or `width` and `height`.
-/

namespace MathCanvas

namespace JsonSource

/-- The two numbers of a record that has to have both. -/
def pairOfNumbers? (first second : String) (source : JsonSource) :
    Option (Binary64 × Binary64) := do
  let fields ← source.record? [first, second]
  match fields with
  | [some a, some b] => return (← a.toBinary64?, ← b.toBinary64?)
  | _ => none

end JsonSource

namespace Position

def ofSource? (source : JsonSource) : Option Position :=
  (source.pairOfNumbers? "x" "y").map fun (x, y) => ⟨x, y⟩

def jsonText (p : Position) : String :=
  Json.objectText [("x", p.x.render .json), ("y", p.y.render .json)]

end Position

namespace Size

def ofSource? (source : JsonSource) : Option Size :=
  (source.pairOfNumbers? "width" "height").map fun (width, height) => ⟨width, height⟩

def jsonText (size : Size) : String :=
  Json.objectText [("width", size.width.render .json), ("height", size.height.render .json)]

end Size

end MathCanvas
