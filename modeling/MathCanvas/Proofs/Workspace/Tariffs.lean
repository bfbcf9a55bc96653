import MathCanvas.Proofs.Workspace.Routes
import Mathlib.Algebra.BigOperators.Ring.List
import Mathlib.Algebra.Order.BigOperators.Group.List
import Mathlib.Data.List.Perm.Subperm
import Mathlib.Tactic.Ring

/-!
# What a change costs

A *tariff* says for each cell how many commands of a cell `d` a refresh of it may bring about, and for
each name of each cell how many a new value of it may (`Workspace.Tariff`). It is enough that a run
can be paid for, command by command and name by name, and that a name pays for all who get its value.
The numbers of routes make a tariff (`Workspace.exists_tariff`).
-/

namespace MathCanvas

namespace Plan

variable {plan : Plan} {e e' carried : Expr} {target : String} {fee : Nat} {price : String → Nat}

/-- What the rest of a run costs, with a fee for each command and a price for each name. -/
def cost (plan : Plan) (fee : Nat) (price : String → Nat) : Nat :=
  fee * plan.commandCount + (plan.targets.map price).sum

/-- A command is paid for, and the name that its answer is stored under, if there is one. -/
theorem cost_of_request (h : plan.next e = .request e') (value : Expr) :
    plan.cost fee price = fee + ((plan.complete e value).1.elim 0 price +
      (plan.complete e value).2.2.cost fee price) := by
  obtain ⟨_ | ⟨⟨path, kind⟩, rest⟩, carried⟩ := plan
  · cases h
  · cases kind with
    | inline mode result =>
      simp only [cost, commandCount, targets, Stage.target?, complete, requests,
        List.filterMap_cons, Option.elim_none, Option.isSome_some]
      ring
    | assign target =>
      cases carried with
      | some carried => cases h
      | none =>
        simp only [cost, commandCount, targets, Stage.target?, complete, requests,
          List.filterMap_cons, Option.elim_some, Option.isSome_some, Option.isSome_none,
          List.map_cons, List.sum_cons, Bool.false_eq_true, if_false]
        ring

/-- A value that is there already is stored under a name. -/
theorem cost_of_assign (h : plan.next e = .assign target carried) (value : Expr) :
    plan.cost fee price = (plan.complete e value).1.elim 0 price +
      (plan.complete e value).2.2.cost fee price := by
  obtain ⟨_ | ⟨⟨path, kind⟩, rest⟩, last⟩ := plan
  · cases h
  · cases kind with
    | inline mode result => cases h
    | assign target =>
      cases last with
      | none => cases h
      | some last =>
        simp only [cost, commandCount, targets, Stage.target?, complete, requests,
          List.filterMap_cons, Option.elim_some, Option.isSome_some, List.map_cons, List.sum_cons,
          if_true]
        ring

/-- The rest of a run costs no more after a stage. -/
theorem cost_complete_le (plan : Plan) (e value : Expr) :
    (plan.complete e value).2.2.cost fee price ≤ plan.cost fee price := by
  cases hnext : plan.next e with
  | finished =>
    obtain ⟨_ | ⟨⟨path, kind⟩, rest⟩, last⟩ := plan
    · exact Nat.le_refl _
    · cases kind <;> cases last <;> cases hnext
  | request e' =>
    rw [cost_of_request hnext value]
    omega
  | assign target carried =>
    rw [cost_of_assign hnext value]
    omega

end Plan

namespace Workspace

variable {w : Workspace} {origin c d : CellId} {name : String}

/-- What different elements of a list are worth together. -/
theorem sum_map_le_of_subset {α : Type} {l l' : List α} (hnodup : l.Nodup) (f : α → Nat)
    (hsub : l ⊆ l') : (l.map f).sum ≤ (l'.map f).sum := by
  obtain ⟨l'', hperm, hl''⟩ := hnodup.subperm hsub
  rw [← (hperm.map f).sum_eq]
  exact (hl''.map f).sum_le_sum fun _ _ => Nat.zero_le _

/-- How many commands of a cell `d` each cell may bring about. -/
structure Tariff (w : Workspace) (origin d : CellId) where
  /-- What a refresh of a cell may cost. -/
  cell : CellId → Nat
  /-- What a new value of a cell's name may cost. -/
  name : CellId → String → Nat
  /-- A run can be paid for. -/
  run_le : ∀ {c : CellId} {plan : Plan}, w.planOf? c = some plan →
    plan.cost (if c = d then 1 else 0) (name c) ≤ cell c
  /-- Whoever gets the value can be paid for. -/
  heirs_le : ∀ {c : CellId} {n : String} {heirs : List CellId}, heirs.Nodup →
    (∀ heir ∈ heirs, w.Inherits origin c n heir) → (heirs.map cell).sum ≤ name c n

open Classical in
/-- The cells that get the value that a cell gives a name, if the cell `origin` does not stand in the
way. -/
noncomputable def takers (w : Workspace) (origin c : CellId) (name : String) : List CellId :=
  w.cells.keys.filter fun heir => w.Inherits origin c name heir

open Classical in
theorem mem_takers : d ∈ w.takers origin c name ↔ w.Inherits origin c name d := by
  unfold takers
  rw [List.mem_filter, decide_eq_true_eq, and_iff_right_iff_imp]
  rintro ⟨cell, later, -, hlater, -⟩
  exact (mem_keys_iff_lookup _ _).mpr ⟨later, hlater⟩

/-- The takers of all that a cell assigns. -/
noncomputable def allTakers (w : Workspace) (origin c : CellId) : List CellId :=
  ((w.planOf? c).elim [] Plan.targets).flatMap (w.takers origin c)

theorem laterThan_lt_of_mem_allTakers (h : d ∈ w.allTakers origin c) :
    w.laterThan d < w.laterThan c := by
  obtain ⟨name, -, hheir⟩ := List.mem_flatMap.mp h
  exact (mem_takers.mp hheir).laterThan_lt

/-- A route begins with a first step, and there are enough of them. -/
theorem routesBy_allTakers (hcell : w.cell? c ≠ none) :
    routesBy (w.allTakers origin) d w.cells.size c = (if c = d then 1 else 0) +
      ((w.allTakers origin c).map (routesBy (w.allTakers origin) d w.cells.size)).sum := by
  obtain ⟨cell, hcell⟩ := Option.ne_none_iff_exists'.mp hcell
  exact (routesBy_succ (fun _ _ => laterThan_lt_of_mem_allTakers) (laterThan_lt_size hcell)).symm

open Classical in
/-- From the cell `origin` on, it does not stand in the way. -/
theorem takers_eq_heirs {first cell : Cell} (hfirst : w.cell? origin = some first)
    (hcell : w.cell? c = some cell) (hle : first.position ≤ cell.position) (name : String) :
    w.takers origin c name = w.heirs c name := by
  unfold takers heirs
  refine List.filter_congr fun heir _ => Bool.eq_iff_iff.mpr ?_
  rw [decide_eq_true_eq, inherits_iff hcell hfirst hle]

theorem routesBy_allTakers_eq_routes {first cell : Cell} (hfirst : w.cell? origin = some first)
    (hcell : w.cell? c = some cell) (hle : first.position ≤ cell.position) :
    routesBy (w.allTakers origin) d w.cells.size c = w.routes d c := by
  refine routesBy_congr (p := fun c => ∃ cell, w.cell? c = some cell ∧
    first.position ≤ cell.position) ?_ _ ⟨cell, hcell, hle⟩
  rintro c ⟨cell, hcell, hle⟩
  have hsame : w.allTakers origin c = w.successors c := by
    unfold allTakers successors
    rw [funext (takers_eq_heirs hfirst hcell hle)]
  refine ⟨hsame, fun heir hheir => ?_⟩
  obtain ⟨name, -, hheir⟩ := List.mem_flatMap.mp hheir
  obtain ⟨cell', later, hcell', hlater, -, -, hlt, -⟩ := mem_takers.mp hheir
  cases hcell.symm.trans hcell'
  exact ⟨later, hlater, Position.le_trans hle (Position.le_of_lt hlt)⟩

/-- Routes make a tariff: a command of `d` has to be paid for once for each of them. -/
theorem exists_tariff {first : Cell} (hfirst : w.cell? origin = some first) (d : CellId) :
    ∃ t : w.Tariff origin d, t.cell origin = w.commandsOf d * w.routes d origin ∧
      ∀ name, t.name origin name =
        w.commandsOf d * ((w.heirs origin name).map (w.routes d)).sum := by
  let price (c : CellId) : Nat :=
    w.commandsOf d * routesBy (w.allTakers origin) d w.cells.size c
  have hprices : ∀ cells : List CellId, (cells.map price).sum = w.commandsOf d *
      (cells.map (routesBy (w.allTakers origin) d w.cells.size)).sum :=
    fun cells => List.sum_map_mul_left ..
  refine ⟨⟨price, fun c name => ((w.takers origin c name).map price).sum, fun {c plan} hplan => ?_,
    fun hnodup hheirs => ?_⟩, ?_, fun name => ?_⟩
  · have hcell : w.cell? c ≠ none := by
      intro hnone
      simp [planOf?, hnone] at hplan
    -- a run of another cell than `d` costs only what its names cost
    have hcommands : (if c = d then 1 else 0) * plan.commandCount =
        w.commandsOf d * if c = d then 1 else 0 := by
      split
      · rename_i heq
        rw [commandsOf, ← heq, hplan, Option.elim_some, Nat.mul_comm]
      · simp
    have hnames : (plan.targets.map fun name => ((w.takers origin c name).map price).sum).sum =
        ((w.allTakers origin c).map price).sum := by
      rw [allTakers, hplan, Option.elim_some, List.map_flatMap, List.flatMap_def, List.sum_flatten,
        List.map_map]
      rfl
    show _ ≤ w.commandsOf d * _
    rw [Plan.cost, hcommands, hnames, hprices, routesBy_allTakers hcell, Nat.mul_add]
  · exact sum_map_le_of_subset hnodup price fun heir hheir =>
      mem_takers.mpr (hheirs heir hheir)
  · show w.commandsOf d * _ = _
    rw [routesBy_allTakers_eq_routes hfirst hfirst (Position.le_refl _)]
  · show ((w.takers origin origin name).map price).sum = _
    rw [hprices, takers_eq_heirs hfirst hfirst (Position.le_refl _)]
    congr 2
    refine List.map_congr_left fun heir hheir => ?_
    obtain ⟨cell, later, hcell, hlater, -, -, hlt, -⟩ :=
      inherits_eq_true_iff.mp (List.of_mem_filter hheir)
    cases hfirst.symm.trans hcell
    exact routesBy_allTakers_eq_routes hfirst hlater (Position.le_of_lt hlt)

end Workspace

end MathCanvas
