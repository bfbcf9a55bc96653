import MathCanvas.Geometry.Codec

/-!
# Settings of a document

The grid that positions snap to, the extent of an element that has none of its own, and whether
cells evaluate by themselves. Every setting has a default.
-/

namespace MathCanvas

/-- Whether cells evaluate as soon as they can, or only when asked to. -/
inductive CalculationMode where
  | automatic
  | manual
  deriving DecidableEq, Inhabited

namespace CalculationMode

def name : CalculationMode → String
  | .automatic => "Automatic"
  | .manual => "Manual"

def ofName? (name : String) : Option CalculationMode :=
  if name == "Automatic" then some .automatic
  else if name == "Manual" then some .manual
  else none

/-- A mode is its name, or an object whose only field has that name and holds null. -/
def ofSource? : JsonSource → Option CalculationMode
  | .str text => text.bind ofName?
  | .obj [(name, .null)] => name.bind ofName?
  | _ => none

end CalculationMode

structure DocumentSettings where
  gridCellSize : Size
  defaultElementSize : Size
  calculationMode : CalculationMode
  deriving DecidableEq, Inhabited

namespace DocumentSettings

/-- A grid of 20 by 20, elements of that extent, automatic calculation. -/
def default : DocumentSettings where
  gridCellSize := ⟨.ofInt 20, .ofInt 20⟩
  defaultElementSize := ⟨.ofInt 20, .ofInt 20⟩
  calculationMode := .automatic

def isManual (settings : DocumentSettings) : Bool := settings.calculationMode == .manual

/-- Whether all settings have their default values. -/
def isDefault (settings : DocumentSettings) : Bool :=
  settings.gridCellSize.same default.gridCellSize
    && settings.defaultElementSize.same default.defaultElementSize
    && settings.calculationMode == default.calculationMode

/-- The value of an optional field; `none` only if the field is there and cannot be read. -/
def fieldOr? {α : Type} (read : JsonSource → Option α) (otherwise : α) :
    Option JsonSource → Option α
  | some source => read source
  | none => some otherwise

/-- Reads settings from a JSON text; fields that are missing take their defaults. -/
def parse? (text : String) : Option DocumentSettings := do
  let source ← JsonSource.read? text
  let fields ← source.record? ["grid_cell_size", "default_element_size", "calculation_mode"]
  match fields with
  | [grid, element, mode] =>
    return {
      gridCellSize := ← fieldOr? Size.ofSource? default.gridCellSize grid
      defaultElementSize := ← fieldOr? Size.ofSource? default.defaultElementSize element
      calculationMode := ← fieldOr? CalculationMode.ofSource? default.calculationMode mode
    }
  | _ => none

def jsonText (settings : DocumentSettings) : String :=
  Json.objectText [
    ("grid_cell_size", settings.gridCellSize.jsonText),
    ("default_element_size", settings.defaultElementSize.jsonText),
    ("calculation_mode", Json.quoted settings.calculationMode.name)]

end DocumentSettings

end MathCanvas
