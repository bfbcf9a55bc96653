import MathCanvas.Proofs.Document.Gradings
import MathCanvas.Proofs.Workspace.Exports
import Mathlib.Algebra.Ring.Nat

/-!
# Routes by which a change spreads

A cell hands the values of its assignments on to the *heirs* of their names: the later cells of its
scope that read the name, up to the next cell that writes it. What one change makes a cell compute
is bounded by the number of *routes* that lead to the cell from one to the next
(`Workspace.routes`). Since heirs come later, a route has no more cells than there are
(`Workspace.routesBy_succ`).
-/

namespace MathCanvas

namespace Plan

/-- The names that are still to be assigned, one for each assignment. -/
def targets (plan : Plan) : List String := plan.stages.filterMap Stage.target?

/-- How many commands some stages send: one for each inline evaluation, and one for the value of an
assignment that comes first, unless a value is carried to it. -/
def requests (carried : Bool) : List Stage → Nat
  | [] => 0
  | ⟨_, .inline ..⟩ :: rest => requests true rest + 1
  | ⟨_, .assign _⟩ :: rest => requests true rest + if carried then 0 else 1

/-- How many commands the rest of a run sends. -/
def commandCount (plan : Plan) : Nat := requests plan.carried.isSome plan.stages

end Plan

/-- The plan of an expression, if it has one. -/
def Expr.plan? (e : Expr) : Option Plan :=
  match Plan.ofExpr e with
  | .ok plan => plan
  | .error _ => none

/-- Whether an event is the dispatch of a command of a cell. -/
def Event.dispatchedBy (c : CellId) : Event → Bool
  | .dispatched _ command => command.cell == c
  | _ => false

namespace Workspace

/-- How many commands a cell dispatched since the client's last operation. -/
def dispatches (w : Workspace) (c : CellId) : Nat := w.history.countP (Event.dispatchedBy c)

/-- The plan of a cell. -/
def planOf? (w : Workspace) (c : CellId) : Option Plan := (w.cell? c).bind (·.expression.plan?)

/-- How many commands a run of a cell sends. -/
def commandsOf (w : Workspace) (c : CellId) : Nat := (w.planOf? c).elim 0 Plan.commandCount

/-- Whether a cell gets the value that another one gives a name: it is in the same scope, comes
later and reads the name, and no cell between them writes it. -/
def inherits (w : Workspace) (c : CellId) (name : String) (heir : CellId) : Bool :=
  match w.cell? c, w.cell? heir with
  | some cell, some later =>
    cell.scope.isSome && later.scope == cell.scope && decide (cell.position < later.position) &&
      later.expression.readNames.contains name &&
      w.cells.values.all fun other =>
        other.scope != cell.scope || !other.expression.writtenNames.contains name ||
          !(decide (cell.position < other.position) && decide (other.position < later.position))
  | _, _ => false

/-- The cells that get the value that a cell gives a name. -/
def heirs (w : Workspace) (c : CellId) (name : String) : List CellId :=
  w.cells.keys.filter (w.inherits c name)

/-- The heirs of all that a cell assigns, in the order in which it does so. -/
def successors (w : Workspace) (c : CellId) : List CellId :=
  ((w.planOf? c).elim [] Plan.targets).flatMap (w.heirs c)

/-- How many ways lead from one cell to another one in fewer than so many steps. -/
def routesBy (next : CellId → List CellId) (target : CellId) : Nat → CellId → Nat
  | 0, _ => 0
  | k + 1, c => (if c = target then 1 else 0) + ((next c).map (routesBy next target k)).sum

/-- How many ways lead from one cell to another one by way of heirs. -/
def routes (w : Workspace) (target c : CellId) : Nat := routesBy w.successors target w.cells.size c

variable {w : Workspace} {c d origin : CellId} {cell later : Cell} {name : String} {k : Nat}

/-! ### Heirs -/

/-- A cell gets the value of another one, if the cell `origin` does not stand in the way. -/
def Inherits (w : Workspace) (origin c : CellId) (name : String) (heir : CellId) : Prop :=
  ∃ cell later, w.cell? c = some cell ∧ w.cell? heir = some later ∧ cell.scope ≠ none ∧
    later.scope = cell.scope ∧ cell.position < later.position ∧
    name ∈ later.expression.readNames ∧
    ∀ b between, w.cell? b = some between → b ≠ origin → between.scope = cell.scope →
      name ∈ between.expression.writtenNames → cell.position < between.position →
      ¬between.position < later.position

theorem inherits_eq_true_iff : w.inherits c name d = true ↔
    ∃ cell later, w.cell? c = some cell ∧ w.cell? d = some later ∧ cell.scope ≠ none ∧
      later.scope = cell.scope ∧ cell.position < later.position ∧
      name ∈ later.expression.readNames ∧
      ∀ b between, w.cell? b = some between → between.scope = cell.scope →
        name ∈ between.expression.writtenNames → cell.position < between.position →
        ¬between.position < later.position := by
  unfold inherits
  cases hcell : w.cell? c with
  | none => simp
  | some cell =>
    cases hlater : w.cell? d with
    | none => simp
    | some later =>
      have hall : (w.cells.values.all fun other =>
          other.scope != cell.scope || !other.expression.writtenNames.contains name ||
            !(decide (cell.position < other.position) && decide (other.position < later.position)))
          = true ↔ ∀ b between, w.cell? b = some between → between.scope = cell.scope →
            name ∈ between.expression.writtenNames → cell.position < between.position →
            ¬between.position < later.position := by
        rw [List.all_eq_true]
        constructor
        · intro h b between hb hscope hwrites hafter hbefore
          have hother := h between ((mem_values_iff_lookup _ _).mpr ⟨b, hb⟩)
          simp [hscope, hwrites, hafter, hbefore] at hother
        · intro h between hmem
          obtain ⟨b, hb⟩ := (mem_values_iff_lookup _ _).mp hmem
          have hother := h b between hb
          by_cases hscope : between.scope = cell.scope
          · by_cases hwrites : name ∈ between.expression.writtenNames
            · by_cases hafter : cell.position < between.position
              · simp [hother hscope hwrites hafter]
              · simp [hafter]
            · simp [hwrites]
          · simp [hscope]
      simp only [Bool.and_eq_true, hall, Option.some.injEq, exists_and_left, exists_eq_left',
        decide_eq_true_eq, List.contains_iff_mem, beq_iff_eq, Option.isSome_iff_ne_none]
      tauto

/-- Before a cell that stands at the origin or later, the origin does not matter. -/
theorem inherits_iff (hcell : w.cell? c = some cell) {first : Cell}
    (hfirst : w.cell? origin = some first) (hle : first.position ≤ cell.position) :
    w.Inherits origin c name d ↔ w.inherits c name d = true := by
  rw [inherits_eq_true_iff]
  constructor
  · rintro ⟨cell', later, hcell', hlater, hattached, hscope, hlt, hreads, hbetween⟩
    cases hcell.symm.trans hcell'
    refine ⟨cell, later, hcell, hlater, hattached, hscope, hlt, hreads, fun b between hb => ?_⟩
    by_cases horigin : b = origin
    · subst horigin
      cases hfirst.symm.trans hb
      exact fun _ _ hafter => absurd hafter (Position.not_lt.mpr hle)
    · exact hbetween b between hb horigin
  · rintro ⟨cell', later, hcell', hlater, hattached, hscope, hlt, hreads, hbetween⟩
    exact ⟨cell', later, hcell', hlater, hattached, hscope, hlt, hreads,
      fun b between hb _ => hbetween b between hb⟩

/-! ### Counting routes -/

section RoutesBy

variable {next next' : CellId → List CellId} {target : CellId}

/-- If every step lowers a number, only so many steps can be made. -/
theorem routesBy_succ {m : CellId → Nat} (hm : ∀ c, ∀ heir ∈ next c, m heir < m c) :
    ∀ {k : Nat} {c : CellId}, m c < k →
      routesBy next target (k + 1) c = routesBy next target k c := by
  intro k
  induction k with
  | zero =>
    intro c hc
    cases hc
  | succ k ih =>
    intro c hc
    rw [routesBy, routesBy]
    congr 2
    refine List.map_congr_left fun heir hheir => ih ?_
    have hlt := hm c heir hheir
    omega

/-- Only the steps from cells that are reached matter. -/
theorem routesBy_congr {p : CellId → Prop}
    (hsame : ∀ c, p c → next c = next' c ∧ ∀ heir ∈ next c, p heir) :
    ∀ (k : Nat) {c : CellId}, p c → routesBy next target k c = routesBy next' target k c := by
  intro k
  induction k with
  | zero => exact fun _ => rfl
  | succ k ih =>
    intro c hc
    obtain ⟨heq, hnext⟩ := hsame c hc
    rw [routesBy, routesBy, ← heq]
    congr 2
    exact List.map_congr_left fun heir hheir => ih (hnext heir hheir)

end RoutesBy

/-- How many cells come after one that is there; there are fewer than cells. -/
def laterThan (w : Workspace) (c : CellId) : Nat :=
  (w.cell? c).elim 0 fun cell => w.laterCells cell.position

theorem laterThan_of_cell? (hcell : w.cell? c = some cell) :
    w.laterThan c = w.laterCells cell.position := by
  rw [laterThan, hcell]
  rfl

theorem laterThan_lt_size (hcell : w.cell? c = some cell) : w.laterThan c < w.cells.size := by
  have hmem : cell ∈ w.cells.values := (mem_values_iff_lookup _ _).mpr ⟨c, hcell⟩
  have hlt : w.laterCells cell.position < w.cells.values.countP fun _ => true :=
    countP_lt_of_mem (fun _ _ => rfl) hmem (decide_eq_false (Position.lt_irrefl _)) rfl
  rw [laterThan_of_cell? hcell]
  rwa [List.countP_true, values_eq_map, List.length_map, Std.TreeMap.length_toList] at hlt

theorem Inherits.laterThan_lt (h : w.Inherits origin c name d) : w.laterThan d < w.laterThan c := by
  obtain ⟨cell, later, hcell, hlater, -, -, hlt, -⟩ := h
  rw [laterThan_of_cell? hcell, laterThan_of_cell? hlater]
  exact laterCells_lt hlater hlt

end Workspace

end MathCanvas
