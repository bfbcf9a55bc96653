import MathCanvas.Proofs.Document.Enlisted
import MathCanvas.Proofs.Number.Magnitude
import MathCanvas.Proofs.Scope.Sources

/-!
# Cells and their own definitions

The input of a name that a cell also writes stands just before the cell. When nothing is in progress
it does not see the definition of the cell (`Workspace.Chronicle.binding?_ne_output`). This takes a
place before the cell, which there is not if `x` is NaN or negative infinity
(`Workspace.binding?_eq_output_nan`).
-/

namespace MathCanvas

namespace Workspace

variable {w : Workspace} {backend : Backend} {may : Workspace → Op → Prop} {deeds : List Deed}
  {c : CellId} {cell : Cell} {name : String} {s q : ScopeId} {r : ReaderId} {x : SlotId}

/-- In every chronicle, the cells are enrolled in their scopes, or are going to be. -/
theorem Chronicle.enlisted (h : Chronicle backend may deeds w) (hbackend : backend.Answering) :
    w.Enlisted := by
  induction h with
  | start => exact .start hbackend
  | call op _ hquiet hop _ ih => exact ih.call hquiet hop
  | step _ hagenda ih => exact ih.step (by simp [hagenda])

/-- When nothing is in progress, a reader that a cell has is in the scope of the cell, and a cell
that also has a definition of the name has the reader just before itself. -/
theorem Enlisted.anchor?_eq_justBefore (h : w.Enlisted) (hquiet : w.agenda = [])
    (hcell : w.cell? c = some cell) (hr : cell.Has name s r .reader)
    (hx : cell.Has name q x .definition) :
    q = s ∧ w.tree.anchor? s r = some (name, cell.position.justBefore) ∧
      (x, cell.position) ∈ w.tree.sequence s name := by
  obtain ⟨hscope, hreads, -⟩ := h.posted.enrolled hquiet hcell hr
  obtain ⟨hscope', hplaced⟩ := h.posted.enrolled hquiet hcell hx
  obtain rfl := Option.some.inj (hscope'.symm.trans hscope)
  have hwrites : cell.outputs.keys.contains name = true :=
    List.contains_iff_mem.mpr ((mem_keys_iff_lookup ..).mpr ⟨_, hx⟩)
  rw [Cell.stand, Cell.readPosition, if_pos hwrites] at hreads
  exact ⟨rfl, hreads, hplaced⟩

/-- When nothing is in progress, the input of a name that a cell also writes observes another slot
than the definition of the cell, whatever has been done to the cells and scopes before. -/
theorem Chronicle.binding?_ne_output (h : Chronicle backend may deeds w)
    (hbackend : backend.Answering) (hquiet : w.agenda = []) (hcell : w.cell? c = some cell)
    (hplace : cell.position.Interior) (hr : cell.Has name s r .reader)
    (hx : cell.Has name q x .definition) :
    q = s ∧ ∃ y, w.tree.binding? s r = some y ∧ y ≠ x := by
  have henlisted := h.enlisted hbackend
  have hconsistent : w.tree.Consistent := henlisted.ready.tied.allConsistent
  obtain ⟨rfl, hanchor, hsequence⟩ := henlisted.anchor?_eq_justBefore hquiet hcell hr hx
  obtain ⟨-, y, -, hobserved, -⟩ := ScopeTree.exists_binding? hconsistent hanchor
  refine ⟨rfl, y, hobserved, ?_⟩
  rintro rfl
  -- a definition that is observed stands at the reader or before
  have hle := (ScopeTree.le_of_binding? hconsistent hanchor hobserved hsequence).2
  exact Position.not_lt.mpr hle (Position.justBefore_lt hplace)

/-- The cell `x := x`, moved to the end of the row: its input of `x` observes the importer. -/
theorem binding?_ne_output_moved :
    let made := (({ backend := .immediate } : Workspace).call
      (.newCell .origin (.app "Assign" [.symbol "x", .symbol "x"]) (some 0) true)).settle 23
    let w := (made.call (.setPosition 0 ⟨.infinity false, .zero true⟩)).settle 23
    w.agenda = [] ∧ ∃ cell, w.cell? 0 = some cell ∧ cell.position = ⟨.infinity false, .zero true⟩ ∧
      cell.Has "x" 0 2 .reader ∧ cell.Has "x" 0 1 .definition ∧
      ∃ y, w.tree.binding? 0 2 = some y ∧ y ≠ 1 := by
  intro made w
  have hstart : Chronicle .immediate (fun _ _ => True) [] { backend := .immediate } := .start
  have hmade := hstart.call
    (.newCell .origin (.app "Assign" [.symbol "x", .symbol "x"]) (some 0) true) rfl not_false trivial
  have hrested : made.agenda = [] := by decide +kernel
  have hw := (((hmade.settle 23).call (.setPosition 0 ⟨.infinity false, .zero true⟩) hrested
    not_false trivial).settle 23)
  have hquiet : w.agenda = [] := by decide +kernel
  have hpresent : w.cell? 0 ≠ none := by decide +kernel
  obtain ⟨cell, hcell⟩ := Option.ne_none_iff_exists'.mp hpresent
  have hat : (w.cell? 0).map (·.position) = some ⟨.infinity false, .zero true⟩ := by decide +kernel
  have hinput : (w.cell? 0).bind (·.reader? "x") = some (0, 2) := by decide +kernel
  have houtput : (w.cell? 0).bind (·.outputs["x"]?) = some ⟨0, 1⟩ := by decide +kernel
  rw [hcell] at hat hinput houtput
  have hposition : cell.position = ⟨.infinity false, .zero true⟩ := Option.some.inj hat
  have hplace : cell.position.Interior := by
    rw [hposition]
    decide
  exact ⟨hquiet, cell, hcell, hposition, hinput, houtput,
    (hw.binding?_ne_output Document.answering_immediate hquiet hcell hplace hinput houtput).2⟩

/-- Where `x` is NaN, the input of the cell `x := x` observes its own definition: the cell waits for
itself. -/
theorem binding?_eq_output_nan :
    let w := (({ backend := .immediate } : Workspace).call
      (.newCell ⟨.nan, .zero false⟩ (.app "Assign" [.symbol "x", .symbol "x"]) (some 0) true)).settle 23
    (∃ deeds, Chronicle .immediate (fun _ _ => True) deeds w) ∧ w.agenda = [] ∧
      (∃ cell, w.cell? 0 = some cell ∧ cell.Has "x" 0 2 .reader ∧ cell.Has "x" 0 1 .definition ∧
        cell.status = .waiting) ∧ w.tree.binding? 0 2 = some 1 := by
  intro w
  have hstart : Chronicle .immediate (fun _ _ => True) [] { backend := .immediate } := .start
  have hw := (hstart.call
    (.newCell ⟨.nan, .zero false⟩ (.app "Assign" [.symbol "x", .symbol "x"]) (some 0) true) rfl
    not_false trivial).settle 23
  have hquiet : w.agenda = [] := by decide +kernel
  have hpresent : w.cell? 0 ≠ none := by decide +kernel
  obtain ⟨cell, hcell⟩ := Option.ne_none_iff_exists'.mp hpresent
  have hinput : (w.cell? 0).bind (·.reader? "x") = some (0, 2) := by decide +kernel
  have houtput : (w.cell? 0).bind (·.outputs["x"]?) = some ⟨0, 1⟩ := by decide +kernel
  have hstatus : (w.cell? 0).map (·.status) = some .waiting := by decide +kernel
  rw [hcell] at hinput houtput hstatus
  exact ⟨⟨_, hw⟩, hquiet, ⟨cell, hcell, hinput, houtput, Option.some.inj hstatus⟩, by decide +kernel⟩

end Workspace

end MathCanvas
